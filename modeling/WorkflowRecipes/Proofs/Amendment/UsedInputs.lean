import WorkflowRecipes.Proofs.Amendment.NoticedChanges
import WorkflowRecipes.Proofs.Document.Equality
import WorkflowRecipes.Proofs.Document.Reaching

/-!
# Inputs that are read

Inputs are dropped by what the document reads before the change, the settings of its inputs among
the rest. No text that is left reads an input that is dropped. But an input that only dropped ones
read is left, although nothing reads it then; it takes another visit to drop it.

Results:
1. `declarations_visit`: the declarations that are left are those of inputs that are read.
2. `mem_used_iff_or`: what is read is read by what is left or by what is dropped.
3. `visit_eq_pure_iff`: what leaves a document alone.
4. `visit_exact_iff`: when the inputs that are left are those that are read.
-/

namespace WorkflowRecipes.UnusedInput

variable {doc settings : Value}

/-! ## Declarations -/

/-- The inputs in the settings of the event. -/
def inputsOf (settings : Value) : Entries := ((settings.get? "inputs").bind Value.entries?).getD []

/-- The inputs that a document declares, each with its settings. -/
def declarations (doc : Value) : Entries :=
  ((doc.lookup? ["on", "workflow_dispatch"]).map inputsOf).getD []

/-- The declarations of inputs that a document does not read. -/
def dropped (doc : Value) : Entries :=
  (declarations doc).filter fun e => !(used doc).contains e.1.keyText

/-- An input is read by what is dropped, and by nothing that is left. -/
def HasLateUnused (doc : Value) : Prop :=
  ∃ e ∈ declarations doc, e.1.keyText ∈ used (.mapping (dropped doc)) ∧
    e.1.keyText ∉ used (visit doc).result

/-- The inputs of an event whose settings are a mapping with them. -/
structure HasInputs (settings : Value) (entries : Entries) (value : Value) (inputs : Entries) :
    Prop where
  entries_eq : settings.entries? = some entries
  value_eq : entries.get? "inputs" = some value
  inputs_eq : value.entries? = some inputs

theorem HasInputs.inputsOf_eq {entries : Entries} {value : Value} {inputs : Entries}
    (h : HasInputs settings entries value inputs) : inputsOf settings = inputs := by
  rw [inputsOf, Value.get?, h.entries_eq, Option.bind_some, h.value_eq, Option.bind_some, h.inputs_eq,
    Option.getD_some]

/-- Settings without inputs are null or have the other entries that they had. -/
theorem withoutInputs_cases {entries : Entries} (h : settings.entries? = some entries) :
    (entries.erase "inputs" = [] ∧ withoutInputs settings = .null) ∨
      withoutInputs settings = (settings.overEntries fun e =>
        (pure (e.erase "inputs") : Editing Entries)).result := by
  rw [withoutInputs, h]
  dsimp only
  split
  · next hempty => exact .inl ⟨List.isEmpty_iff.mp hempty, rfl⟩
  · exact .inr (Value.run_overEntries (fun e => e.erase "inputs") settings)

theorem inputsOf_withoutInputs {entries : Entries} (h : settings.entries? = some entries) :
    inputsOf (withoutInputs settings) = [] := by
  obtain ⟨-, hnull⟩ | hleft := withoutInputs_cases h
  · rw [hnull]
    rfl
  · have herased := Entries.hasKey_erase_self entries "inputs"
    rw [Entries.hasKey_eq, Option.isSome_eq_false_iff, Option.isNone_iff_eq_none] at herased
    rw [hleft, inputsOf, Value.get?, Value.entries?_overEntries, h, Option.map_some,
      Option.bind_some, Editing.result_pure, herased]
    rfl

theorem strings_withoutInputs {entries : Entries} (h : settings.entries? = some entries) :
    (withoutInputs settings).strings = Value.stringsOfEntries (entries.erase "inputs") := by
  obtain ⟨hempty, hnull⟩ | hleft := withoutInputs_cases h
  · rw [hnull, hempty]
    rfl
  · rw [hleft, Value.strings_overEntries h, Editing.result_pure]

/-- All that the settings of the event can become. -/
theorem dropUnused_cases (used : List String) (settings : Value) :
    (inputsOf settings = [] ∧ (dropUnused used settings).result = settings) ∨
      ∃ entries value inputs, HasInputs settings entries value inputs ∧
        ((inputs.filter (fun e => used.contains e.1.keyText) = [] ∧
          (dropUnused used settings).result = withoutInputs settings) ∨
        (dropUnused used settings).result = (Value.overKey "inputs" (Value.overEntries fun _ =>
          (pure (inputs.filter fun e => used.contains e.1.keyText) : Editing Entries))
            settings).result) := by
  unfold dropUnused
  cases hinputs : (settings.get? "inputs").bind Value.entries? with
  | none => exact .inl ⟨by rw [inputsOf, hinputs, Option.getD_none], rfl⟩
  | some inputs =>
    obtain ⟨value, hvalue, hvalueEntries⟩ := Option.bind_eq_some_iff.mp hinputs
    obtain ⟨entries, hentries, hget⟩ := Option.bind_eq_some_iff.mp hvalue
    refine .inr ⟨entries, value, inputs, ⟨hentries, hget, hvalueEntries⟩, ?_⟩
    rw [Editing.result_bind, result_keepUsed]
    split
    · next hempty =>
      rw [Bool.and_eq_true, List.isEmpty_iff] at hempty
      exact .inl ⟨hempty.1, rfl⟩
    · exact .inr rfl

theorem inputsOf_dropUnused (used : List String) (settings : Value) :
    inputsOf (dropUnused used settings).result =
      (inputsOf settings).filter fun e => used.contains e.1.keyText := by
  obtain ⟨hnone, hresult⟩ | ⟨entries, value, inputs, h, ⟨hkept, hresult⟩ | hresult⟩ :=
    dropUnused_cases used settings
  · rw [hresult, hnone, List.filter_nil]
  · rw [hresult, inputsOf_withoutInputs h.entries_eq, h.inputsOf_eq, hkept]
  · rw [hresult, h.inputsOf_eq, inputsOf, Value.get?_overKey, Value.get?, h.entries_eq,
      Option.bind_some, h.value_eq, Option.map_some, Option.bind_some, Value.entries?_overEntries,
      h.inputs_eq]
    rfl

/-- The declarations that are left are those of the inputs that the document reads. -/
theorem declarations_visit (doc : Value) :
    declarations (visit doc).result =
      (declarations doc).filter fun e => (used doc).contains e.1.keyText := by
  rw [declarations, visit, Value.lookup?_overKeys, declarations]
  cases doc.lookup? ["on", "workflow_dispatch"] with
  | none => rfl
  | some settings => exact inputsOf_dropUnused (used doc) settings

theorem mem_declarations_visit {e : Value × Value} :
    e ∈ declarations (visit doc).result ↔ e ∈ declarations doc ∧ e.1.keyText ∈ used doc := by
  rw [declarations_visit, List.mem_filter, List.contains_iff_mem]

/-! ## What is read -/

theorem mem_used_iff {name : String} :
    name ∈ used doc ↔ ∃ s ∈ doc.strings, name ∈ (usagesFrom 0 s.toList).map String.ofList :=
  List.mem_flatMap

/-- The key of the inputs is no text that reads one. -/
theorem usagesFrom_inputs : usagesFrom 0 "inputs".toList = [] := by decide

/-- Entries are kept or dropped, and their strings with them. -/
theorem mem_stringsOfEntries_filter (p : Value × Value → Bool) (entries : Entries) (s : String) :
    s ∈ Value.stringsOfEntries entries ↔ s ∈ Value.stringsOfEntries (entries.filter p) ∨
      s ∈ Value.stringsOfEntries (entries.filter fun e => !p e) := by
  simp only [Value.mem_stringsOfEntries, List.mem_filter, Bool.not_eq_true']
  constructor
  · rintro ⟨e, he, hs⟩
    cases hp : p e with
    | true => exact .inl ⟨e, ⟨he, hp⟩, hs⟩
    | false => exact .inr ⟨e, ⟨he, hp⟩, hs⟩
  · rintro (⟨e, ⟨he, -⟩, hs⟩ | ⟨e, ⟨he, -⟩, hs⟩) <;> exact ⟨e, he, hs⟩

/-- Besides its key an entry with the only key of a name has the strings of its value. -/
theorem mem_stringsOfEntries_erase {entries : Entries} {name : String} {value : Value}
    (hwf : (Value.mapping entries).WellFormed) (h : entries.get? name = some value) {s : String} :
    s ∈ Value.stringsOfEntries entries ↔
      s ∈ Value.stringsOfEntries (entries.erase name) ∨ s = name ∨ s ∈ value.strings := by
  have hmem := Entries.mem_of_get?_eq_some h
  have honly : ∀ e ∈ entries, e.1.isKey name = true → e = (.string name, value) := by
    intro e he hkey
    refine Value.eq_of_same_key hwf he hmem ?_
    rw [Value.isKey_iff.mp hkey]
    exact Value.same_refl _
  rw [mem_stringsOfEntries_filter fun e => !e.1.isKey name, Entries.erase]
  refine or_congr_right ?_
  simp only [Value.mem_stringsOfEntries, List.mem_filter, Bool.not_not]
  constructor
  · rintro ⟨e, ⟨he, hkey⟩, hs⟩
    cases honly e he hkey
    exact hs.imp_left List.mem_singleton.mp
  · intro hs
    exact ⟨_, ⟨hmem, Value.isKey_string name⟩, hs.imp_left List.mem_singleton.mpr⟩

/-- The strings of settings are left or dropped, but for the key of the inputs. -/
theorem mem_strings_dropUnused (used : List String) (hwf : settings.WellFormed) {s : String}
    (hs : s ≠ "inputs") :
    s ∈ settings.strings ↔ s ∈ (dropUnused used settings).result.strings ∨
      s ∈ Value.stringsOfEntries
        ((inputsOf settings).filter fun e => !used.contains e.1.keyText) := by
  obtain ⟨hnone, hresult⟩ | ⟨entries, value, inputs, h, hcases⟩ := dropUnused_cases used settings
  · rw [hresult, hnone, List.filter_nil, Value.stringsOfEntries, or_iff_left List.not_mem_nil]
  have hvalue := Value.strings_of_entries? value h.inputs_eq
  have hinputs := mem_stringsOfEntries_filter (fun e => used.contains e.1.keyText) inputs s
  rw [h.inputsOf_eq]
  obtain ⟨hkept, hresult⟩ | hresult := hcases
  · have herased := mem_stringsOfEntries_erase
      (Value.wellFormed_of_entries? settings hwf h.entries_eq) h.value_eq (s := s)
    rw [hkept, Value.stringsOfEntries, or_iff_right List.not_mem_nil] at hinputs
    rw [hresult, strings_withoutInputs h.entries_eq, Value.strings_of_entries? _ h.entries_eq,
      herased, hvalue, hinputs, or_iff_right hs]
  · obtain ⟨before, after, hold, hnew⟩ := Value.exists_stringsOfEntries_overKey h.value_eq
    rw [hresult, Value.overKey, Value.strings_overEntries h.entries_eq, hnew,
      Value.strings_of_entries? _ h.entries_eq, hold, Value.strings_overEntries h.inputs_eq, hvalue]
    simp only [List.mem_append, Editing.result_pure, hinputs]
    tauto

/-- The strings of a document are left or dropped, but for the key of the inputs. -/
theorem mem_strings_visit (hdoc : doc.WellFormed) {s : String} (hs : s ≠ "inputs") :
    s ∈ doc.strings ↔
      s ∈ (visit doc).result.strings ∨ s ∈ (Value.mapping (dropped doc)).strings := by
  rw [dropped, declarations, Value.strings]
  cases hsettings : doc.lookup? ["on", "workflow_dispatch"] with
  | none =>
    have hsame : visit doc = pure doc :=
      Value.overKeys_eq_pure fun child hchild => by rw [hsettings] at hchild; cases hchild
    rw [hsame]
    exact (or_iff_left List.not_mem_nil).symm
  | some settings =>
    obtain ⟨before, after, hold, hnew⟩ := Value.exists_strings_overKeys hsettings
    have hdropped := mem_strings_dropUnused (used doc) (hdoc.of_lookup? hsettings) hs
    rw [visit, hnew, hold, Option.map_some, Option.getD_some]
    simp only [List.mem_append, hdropped]
    tauto

/-- What a document reads is read by what is left of it or by what is dropped. -/
theorem mem_used_iff_or (hdoc : doc.WellFormed) {name : String} :
    name ∈ used doc ↔ name ∈ used (visit doc).result ∨ name ∈ used (.mapping (dropped doc)) := by
  have hne : ∀ s : String, name ∈ (usagesFrom 0 s.toList).map String.ofList → s ≠ "inputs" := by
    rintro s hread rfl
    rw [usagesFrom_inputs] at hread
    cases hread
  simp only [mem_used_iff]
  constructor
  · rintro ⟨s, hs, hread⟩
    exact ((mem_strings_visit hdoc (hne s hread)).mp hs).imp (⟨s, ·, hread⟩) (⟨s, ·, hread⟩)
  · rintro (⟨s, hs, hread⟩ | ⟨s, hs, hread⟩)
    · exact ⟨s, (mem_strings_visit hdoc (hne s hread)).mpr (.inl hs), hread⟩
    · exact ⟨s, (mem_strings_visit hdoc (hne s hread)).mpr (.inr hs), hread⟩

/-! ## Another visit -/

theorem keepUsed_eq_pure {used : List String} {inputs : Entries}
    (h : ∀ e ∈ inputs, e.1.keyText ∈ used) : keepUsed used inputs = pure inputs := by
  induction inputs with
  | nil => rfl
  | cons entry rest ih =>
    obtain ⟨hentry, hrest⟩ := List.forall_mem_cons.mp h
    rw [keepUsed, if_pos (List.contains_iff_mem.mpr hentry), ih hrest]
    rfl

theorem dropUnused_eq_pure {used : List String}
    (h : ∀ e ∈ inputsOf settings, e.1.keyText ∈ used) :
    dropUnused used settings = pure settings := by
  unfold dropUnused
  cases hinputs : (settings.get? "inputs").bind Value.entries? with
  | none => rfl
  | some inputs =>
    rw [inputsOf, hinputs, Option.getD_some] at h
    dsimp only
    rw [keepUsed_eq_pure h]
    show (if (inputs.isEmpty && !inputs.isEmpty) = true then _ else _) = _
    rw [Bool.and_not_self, if_neg Bool.false_ne_true]
    refine Value.overEntries_eq_pure settings fun entries hentries => ?_
    refine Entries.overKey_eq_pure fun value hvalue => ?_
    refine Value.overEntries_eq_pure value fun old hold => ?_
    rw [Value.get?, hentries, Option.bind_some, hvalue, Option.bind_some, hold] at hinputs
    rw [Option.some.inj hinputs]
    rfl

/-- A document is left alone if and only if it reads all the inputs that it declares. -/
theorem visit_eq_pure_iff :
    visit doc = pure doc ↔ ∀ e ∈ declarations doc, e.1.keyText ∈ used doc := by
  constructor
  · intro h e he
    have hleft : e ∈ declarations (visit doc).result := by rwa [h, Editing.result_pure]
    exact (mem_declarations_visit.mp hleft).2
  · intro h
    refine Value.overKeys_eq_pure fun settings hsettings => dropUnused_eq_pure ?_
    rw [declarations, hsettings] at h
    exact h

/-- No text that is left reads an input that was dropped. -/
theorem not_mem_used_of_dropped (hdoc : doc.WellFormed) {e : Value × Value}
    (he : e ∈ declarations doc) (hgone : e ∉ declarations (visit doc).result) :
    e.1.keyText ∉ used (visit doc).result := by
  intro hread
  exact hgone (mem_declarations_visit.mpr ⟨he, (mem_used_iff_or hdoc).mpr (.inl hread)⟩)

/-- After a visit the inputs that are declared are those that the document read, and no text reads
one that was dropped. The inputs that are left are those that what is left reads, and another visit
changes nothing, if and only if no input was read by dropped ones alone. -/
theorem visit_exact_iff (hdoc : doc.WellFormed) :
    let after := (visit doc).result
    declarations after = (declarations doc).filter (fun e => (used doc).contains e.1.keyText) ∧
      (∀ e ∈ declarations doc, e ∉ declarations after → e.1.keyText ∉ used after) ∧
      ((∀ e ∈ declarations doc, e ∈ declarations after ↔ e.1.keyText ∈ used after) ↔
        ¬ HasLateUnused doc) ∧
      (visit after = pure after ↔ ¬ HasLateUnused doc) := by
  intro after
  have hsettled : (∀ e ∈ declarations after, e.1.keyText ∈ used after) ↔ ¬ HasLateUnused doc := by
    constructor
    · rintro h ⟨e, he, hdropped, hleft⟩
      exact hleft (h e (mem_declarations_visit.mpr
        ⟨he, (mem_used_iff_or hdoc).mpr (.inr hdropped)⟩))
    · intro h e he
      obtain ⟨hdeclared, hread⟩ := mem_declarations_visit.mp he
      by_contra hleft
      exact h ⟨e, hdeclared, ((mem_used_iff_or hdoc).mp hread).resolve_left hleft, hleft⟩
  refine ⟨declarations_visit doc, fun e => not_mem_used_of_dropped hdoc, ?_,
    visit_eq_pure_iff.trans hsettled⟩
  rw [← hsettled]
  constructor
  · intro h e he
    exact (h e (mem_declarations_visit.mp he).1).mp he
  · intro h e hdeclared
    refine ⟨h e, fun hread => ?_⟩
    by_contra hgone
    exact not_mem_used_of_dropped hdoc hdeclared hgone hread

/-- A workflow with the inputs `a` and `b`, of which a step reads `b`. -/
def sampleInputs : Value :=
  .mapping [(.string "on", .mapping [(.string "workflow_dispatch", .mapping [(.string "inputs",
      .mapping [(.string "a", .null), (.string "b", .null)])])]),
    (.string "run", .string "echo $\x7b\x7b inputs.b \x7d\x7d")]

/-- What reads `b` is left, so one visit is enough. -/
theorem visit_sampleInputs :
    sampleInputs.WellFormed ∧
      visit (visit sampleInputs).result = pure (visit sampleInputs).result := by
  have hdoc : sampleInputs.WellFormed := by
    simp [sampleInputs, Value.WellFormed, Value.WellFormedEntries, Yaml.keysDiffer, Value.same]
  refine ⟨hdoc, (visit_exact_iff hdoc).2.2.2.mpr ?_⟩
  unfold HasLateUnused
  decide

/-- Only the input `a`, which is dropped, reads the input `b`. It is left, and another visit drops
it. -/
theorem visit_leaves_unused :
    let doc := Value.mapping [(.string "on", .mapping [(.string "workflow_dispatch", .mapping
      [(.string "inputs", .mapping [(.string "a", .mapping
        [(.string "description", .string "see inputs.b")]), (.string "b", .null)])])])]
    let after := (visit doc).result
    doc.WellFormed ∧ declarations after = [(.string "b", .null)] ∧ "b" ∉ used after ∧
      declarations (visit after).result = [] := by
  refine ⟨?_, by decide, by decide, by decide⟩
  simp [Value.WellFormed, Value.WellFormedEntries, Yaml.keysDiffer, Value.same]

end WorkflowRecipes.UnusedInput
