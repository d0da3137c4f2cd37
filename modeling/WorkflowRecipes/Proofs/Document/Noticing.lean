import WorkflowRecipes.Proofs.Document.Sameness
import WorkflowRecipes.Proofs.Document.Walks

/-!
# Changes that sameness notices

A document that is changed could still be the same as before, in another order or with another sign
of a zero. A change is noticed if that does not happen: the new value is the same as the old one
only if it is the old one.

Results:
1. `noticed_mapping`, `noticed_sequence`, `noticed_tagged`: changes of parts of a value.
2. `noticed_of_length_ne`, `noticed_of_new_key`, `noticed_of_text?`: changes of whole mappings.
3. `noticed_overKeys`, `noticed_overJobs`, `noticed_overSteps`, `noticed_overStrings`: walks.
-/

namespace WorkflowRecipes

namespace Value

/-- A change of a document is noticed: the new value is the same as the old one only if it is the
old one. -/
def Noticed (new old : Value) : Prop := old.WellFormed → new.same old = true → new = old

theorem Noticed.refl (value : Value) : Noticed value value := fun _ _ => rfl

/-! ## Values that are the same only as themselves -/

theorem noticed_null (old : Value) : Noticed .null old := fun _ h => (same_null_iff.mp h).symm

theorem noticed_string (text : String) (old : Value) : Noticed (.string text) old :=
  fun _ h => (same_string_iff.mp h).symm

theorem noticed_integer (n : Int) (old : Value) : Noticed (.number (.integer n)) old :=
  fun _ h => (same_integer_iff.mp h).symm

theorem noticed_strings (texts : List String) (old : Value) :
    Noticed (.sequence (texts.map .string)) old :=
  fun _ h => (eq_of_same_strings h).symm

theorem noticed_replacement (old : Value) (text : String) : Noticed (old.replacement text) old := by
  unfold replacement
  split
  · exact noticed_integer _ _
  · exact noticed_string _ _

/-! ## Parts of a value -/

theorem noticed_tagged {new old : Value} (h : Noticed new old) (tag : String) :
    Noticed (.tagged tag new) (.tagged tag old) := by
  intro hwf hsame
  obtain ⟨other, heq, hinner⟩ := same_tagged_iff.mp hsame
  cases heq
  rw [h hwf hinner]

/-- Items that are changed one by one. -/
theorem noticed_sequence {items items' : List Value} (h : List.Forall₂ Noticed items' items) :
    Noticed (.sequence items') (.sequence items) := by
  intro hwf hsame
  obtain ⟨others, heq, hitems⟩ := same_sequence_iff.mp hsame
  cases heq
  rw [sameItems_iff] at hitems
  replace hwf : WellFormedItems items := hwf
  clear hsame
  refine congrArg Value.sequence ?_
  induction h with
  | nil => rfl
  | cons hfirst hrest ih =>
    cases hitems with
    | cons hsame hothers => rw [hfirst hwf.1 hsame, ih hothers hwf.2]

/-- Values that are changed one by one, each under its old key. -/
theorem noticed_mapping {entries entries' : Entries}
    (h : List.Forall₂ (fun e' e => e'.1 = e.1 ∧ Noticed e'.2 e.2) entries' entries) :
    Noticed (.mapping entries') (.mapping entries) := by
  intro hwf hsame
  obtain ⟨others, heq, -, hentries⟩ := same_mapping_iff.mp hsame
  cases heq
  have hvalues := forall₂_of_sameEntries hwf (h.imp fun _ _ h => h.1) hentries
  replace hwf : WellFormedEntries entries := hwf.2
  clear hsame hentries
  refine congrArg Value.mapping ?_
  induction h with
  | nil => rfl
  | @cons e' e _ _ hfirst hrest ih =>
    cases hvalues with
    | cons hsame hothers =>
      rw [Prod.ext hsame.1 (hfirst.2 hwf.2.1 hsame.2), ih hothers hwf.2.2]

/-! ## Mappings and sequences as wholes -/

theorem noticed_of_length_ne {entries entries' : Entries} (h : entries'.length ≠ entries.length) :
    Noticed (.mapping entries') (.mapping entries) := by
  intro _ hsame
  obtain ⟨others, heq, hlength, -⟩ := same_mapping_iff.mp hsame
  cases heq
  exact absurd hlength h

theorem noticed_of_lengths_ne {items items' : List Value} (h : items'.length ≠ items.length) :
    Noticed (.sequence items') (.sequence items) := by
  intro _ hsame
  obtain ⟨others, heq, hitems⟩ := same_sequence_iff.mp hsame
  cases heq
  exact absurd (sameItems_iff.mp hitems).length_eq h

theorem noticed_filter_entries (p : Value × Value → Bool) (entries : Entries) :
    Noticed (.mapping (entries.filter p)) (.mapping entries) := by
  by_cases h : (entries.filter p).length = entries.length
  · rw [List.filter_eq_self.mpr (List.length_filter_eq_length_iff.mp h)]
    exact .refl _
  · exact noticed_of_length_ne h

theorem noticed_erase (entries : Entries) (name : String) :
    Noticed (.mapping (entries.erase name)) (.mapping entries) :=
  noticed_filter_entries _ entries

/-- Items that are changed one by one, some of which are dropped then. -/
theorem noticed_filter {items items' : List Value} (h : List.Forall₂ Noticed items' items)
    (p : Value → Bool) : Noticed (.sequence (items'.filter p)) (.sequence items) := by
  by_cases hlength : (items'.filter p).length = items.length
  · rw [← h.length_eq] at hlength
    rw [List.filter_eq_self.mpr (List.length_filter_eq_length_iff.mp hlength)]
    exact noticed_sequence h
  · exact noticed_of_lengths_ne hlength

/-- A string key that was not there before. -/
theorem noticed_of_new_key {entries entries' : Entries} {name : String}
    (hold : entries.hasKey name = false) (hnew : entries'.hasKey name = true) :
    Noticed (.mapping entries') (.mapping entries) := by
  intro _ hsame
  obtain ⟨others, heq, -, hentries⟩ := same_mapping_iff.mp hsame
  cases heq
  obtain ⟨value, hvalue⟩ := Entries.hasKey_iff_exists_mem.mp hnew
  obtain ⟨e, he, hkey, -⟩ := sameEntries_iff.mp hentries _ hvalue
  have hthere : entries.hasKey name = true :=
    Entries.hasKey_iff_exists_mem.mpr ⟨e.2, by rw [← same_string_iff.mp hkey]; exact he⟩
  rw [hold] at hthere
  cases hthere

theorem text?_of_same : ∀ {a b : Value}, a.same b = true → a.text? = b.text?
  | .tagged _ inner, _, h => by
    obtain ⟨other, rfl, hinner⟩ := same_tagged_iff.mp h
    exact @text?_of_same inner other hinner
  | .string _, _, h => by rw [same_string_iff.mp h]
  | .sequence _, _, h => by
    obtain ⟨_, rfl, -⟩ := same_sequence_iff.mp h
    rfl
  | .mapping _, _, h => by
    obtain ⟨_, rfl, -⟩ := same_mapping_iff.mp h
    rfl
  | .number _, _, h => by
    obtain ⟨_, rfl, -⟩ := same_number_iff.mp h
    rfl
  | .bool _, _, h => by rw [same_bool_iff.mp h]
  | .null, _, h => by rw [same_null_iff.mp h]

/-- Another text under a string key. -/
theorem noticed_of_text? {entries entries' : Entries} {name text : String}
    (hnew : entries'.text? name = some text) (hold : entries.text? name ≠ some text) :
    Noticed (.mapping entries') (.mapping entries) := by
  intro hwf hsame
  obtain ⟨others, heq, -, hentries⟩ := same_mapping_iff.mp hsame
  cases heq
  rw [Entries.text?, Option.bind_eq_some_iff] at hnew
  obtain ⟨value, hvalue, htext⟩ := hnew
  obtain ⟨e, he, hkey, hsame⟩ := sameEntries_iff.mp hentries _ (Entries.mem_of_get?_eq_some hvalue)
  obtain ⟨key, old⟩ := e
  obtain rfl := same_string_iff.mp hkey
  -- Keys differ in the old mapping, so the entry that was matched is the one that is looked up.
  obtain ⟨found, hfound⟩ := Option.isSome_iff_exists.mp <|
    Entries.hasKey_eq entries name ▸ Entries.hasKey_iff_exists_mem.mpr ⟨old, he⟩
  have hunique := eq_of_same_key hwf he (Entries.mem_of_get?_eq_some hfound) (same_refl _)
  cases hunique
  refine absurd ?_ hold
  rw [Entries.text?, hfound, Option.bind_some, ← text?_of_same hsame, htext]

/-! ## Walks -/

/-- What is done to the entries of a mapping is noticed. -/
def NoticesEntries (f : Entries → Editing Entries) : Prop :=
  ∀ entries, Noticed (.mapping (f entries).result) (.mapping entries)

/-- What is done to the entries that a value has is noticed in the value. -/
theorem noticed_overEntriesOf {f : Entries → Editing Entries} : ∀ value : Value,
    (∀ entries, value.entries? = some entries →
      Noticed (.mapping (f entries).result) (.mapping entries)) →
        Noticed (overEntries f value).result value
  | .mapping entries, h => h entries rfl
  | .tagged tag value, h => noticed_tagged (noticed_overEntriesOf value h) tag
  | .sequence _, _ | .string _, _ | .number _, _ | .bool _, _ | .null, _ => .refl _

theorem noticed_overEntries {f : Entries → Editing Entries} (h : NoticesEntries f)
    (value : Value) : Noticed (overEntries f value).result value :=
  noticed_overEntriesOf value fun entries _ => h entries

theorem noticed_overItems {f : List Value → Editing (List Value)}
    (h : ∀ items, Noticed (.sequence (f items).result) (.sequence items)) :
    ∀ value : Value, Noticed (overItems f value).result value
  | .sequence items => h items
  | .tagged tag value => noticed_tagged (noticed_overItems h value) tag
  | .mapping _ | .string _ | .number _ | .bool _ | .null => .refl _

/-- Entries that stay as they are. -/
theorem forall₂_refl (entries : Entries) :
    List.Forall₂ (fun e' e : Value × Value => e'.1 = e.1 ∧ Noticed e'.2 e.2) entries entries :=
  List.forall₂_same.mpr fun _ _ => ⟨rfl, .refl _⟩

theorem noticed_overKeyOfEntries {f : Value → Editing Value} {name : String} {entries : Entries}
    (h : ∀ value, entries.get? name = some value → Noticed (f value).result value) :
    Noticed (.mapping (Entries.overKey name f entries).result) (.mapping entries) := by
  refine noticed_mapping ?_
  induction entries with
  | nil => exact .nil
  | cons entry rest ih =>
    obtain ⟨key, value⟩ := entry
    cases hkey : key.isKey name with
    | true =>
      rw [Entries.overKey_cons_of_isKey hkey]
      exact .cons ⟨rfl, h value (Entries.get?_cons_of_isKey hkey)⟩ (forall₂_refl rest)
    | false =>
      rw [Entries.overKey_cons_of_not_isKey hkey]
      rw [Entries.get?_cons_of_not_isKey hkey] at h
      exact .cons ⟨rfl, .refl _⟩ (ih h)

/-- Setting a value is noticed if it is noticed in the place of the old one, if there is one. -/
theorem noticed_set {entries : Entries} {name : String} {new : Value}
    (h : ∀ old, entries.get? name = some old → Noticed new old) :
    Noticed (.mapping (entries.set name new)) (.mapping entries) := by
  cases hkey : entries.hasKey name with
  | true =>
    rw [Entries.set_eq_overKey hkey]
    exact noticed_overKeyOfEntries h
  | false => exact noticed_of_new_key hkey (Entries.hasKey_set_self entries name new)

theorem noticed_overKey {f : Value → Editing Value} (h : ∀ value, Noticed (f value).result value)
    (name : String) (value : Value) : Noticed (overKey name f value).result value :=
  noticed_overEntries (fun _ => noticed_overKeyOfEntries fun value _ => h value) value

theorem noticed_overKeys {f : Value → Editing Value} (h : ∀ value, Noticed (f value).result value)
    (names : List String) : ∀ value : Value, Noticed (overKeys names f value).result value := by
  induction names with
  | nil => exact h
  | cons name rest ih => exact noticed_overKey ih name

theorem noticed_overValues {f : String → Value → Editing Value}
    (h : ∀ name value, Noticed (f name value).result value) : NoticesEntries (overValues f) := by
  intro entries
  refine noticed_mapping ?_
  induction entries with
  | nil => exact .nil
  | cons entry rest ih => exact .cons ⟨rfl, h _ entry.2⟩ ih

theorem forall₂_overIndexed {f : Nat → Value → Editing Value}
    (h : ∀ i value, Noticed (f i value).result value) (i : Nat) (items : List Value) :
    List.Forall₂ Noticed (overIndexed f i items).result items := by
  induction items generalizing i with
  | nil => exact .nil
  | cons item rest ih => exact .cons (h i item) (ih (i + 1))

section Steps

variable {f : Location → Entries → Editing Entries}

theorem noticed_overJobs (h : ∀ location, NoticesEntries (f location)) (doc : Value) :
    Noticed (overJobs f doc).result doc :=
  noticed_overKey (noticed_overEntries <| noticed_overValues fun _ =>
    noticed_overEntries (h _)) "jobs" doc

theorem forall₂_overMappings (h : ∀ location, NoticesEntries (f location)) (location : Location)
    (items : List Value) :
    List.Forall₂ Noticed (overMappings f location items).result items := by
  refine forall₂_overIndexed (fun i item => ?_) 0 items
  cases item with
  | mapping entries => exact h (location.index i) entries
  | _ => exact .refl _

mutual

theorem noticed_overStepsAt (h : ∀ location, NoticesEntries (f location)) (location : Location) :
    ∀ value : Value, Noticed (overStepsAt f location value).result value
  | .mapping entries => noticed_mapping (forall₂_overStepsOfEntries h location entries)
  | .sequence items => noticed_sequence (forall₂_overStepsOfItems h location 0 items)
  | .tagged tag value => noticed_tagged (noticed_overStepsAt h location value) tag
  | .string _ | .number _ | .bool _ | .null => .refl _

theorem forall₂_overStepsOfEntries (h : ∀ location, NoticesEntries (f location))
    (location : Location) : ∀ entries : List (Value × Value),
      List.Forall₂ (fun e' e => e'.1 = e.1 ∧ Noticed e'.2 e.2)
        (overStepsOfEntries f location entries).result entries
  | [] => .nil
  | (key, value) :: rest => by
    have hrest := forall₂_overStepsOfEntries h location rest
    have hvalue := noticed_overStepsAt h (location.key key.keyText) value
    by_cases hsteps : key.keyText = "steps" ∧ value.isSequence = true
    · cases value with
      | sequence items =>
        rw [overStepsOfEntries_cons_steps hsteps.1]
        exact .cons ⟨rfl, noticed_sequence (forall₂_overMappings h _ items)⟩ hrest
      | _ => cases hsteps.2
    · rw [overStepsOfEntries_cons_other hsteps]
      exact .cons ⟨rfl, hvalue⟩ hrest

theorem forall₂_overStepsOfItems (h : ∀ location, NoticesEntries (f location))
    (location : Location) (i : Nat) : ∀ items : List Value,
      List.Forall₂ Noticed (overStepsOfItems f location i items).result items
  | [] => .nil
  | item :: rest => .cons (noticed_overStepsAt h (location.index i) item)
      (forall₂_overStepsOfItems h location (i + 1) rest)

end

theorem noticed_overSteps (h : ∀ location, NoticesEntries (f location)) (doc : Value) :
    Noticed (overSteps f doc).result doc :=
  noticed_overStepsAt h Location.root doc

end Steps

section Strings

variable (f : Location → String → Editing String)

mutual

/-- Changes of strings are always noticed. -/
theorem noticed_overStringsAt (location : Location) : ∀ value : Value,
    Noticed (overStringsAt f location value).result value
  | .string _ => noticed_string _ _
  | .mapping entries => noticed_mapping (forall₂_overStringsOfEntries location entries)
  | .sequence items => noticed_sequence (forall₂_overStringsOfItems location 0 items)
  | .tagged tag value => noticed_tagged (noticed_overStringsAt location value) tag
  | .number _ | .bool _ | .null => .refl _

theorem forall₂_overStringsOfEntries (location : Location) : ∀ entries : List (Value × Value),
    List.Forall₂ (fun e' e => e'.1 = e.1 ∧ Noticed e'.2 e.2)
      (overStringsOfEntries f location entries).result entries
  | [] => .nil
  | (key, value) :: rest => .cons ⟨rfl, noticed_overStringsAt (location.key key.keyText) value⟩
      (forall₂_overStringsOfEntries location rest)

theorem forall₂_overStringsOfItems (location : Location) (i : Nat) : ∀ items : List Value,
    List.Forall₂ Noticed (overStringsOfItems f location i items).result items
  | [] => .nil
  | item :: rest => .cons (noticed_overStringsAt (location.index i) item)
      (forall₂_overStringsOfItems location (i + 1) rest)

end

theorem noticed_overStrings (doc : Value) : Noticed (overStrings f doc).result doc :=
  noticed_overStringsAt f Location.root doc

end Strings

end Value

end WorkflowRecipes
