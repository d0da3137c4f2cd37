import WorkflowRecipes.ActionRef
import WorkflowRecipes.Amendment.Edit
import WorkflowRecipes.Document.Access

/-!
# Entries by string keys

What looking up, setting, erasing and changing an entry do to each other. A string key is the same
only as an equal string key, so other entries are left alone.

Results:
1. `get?_set_self`, `get?_set_of_ne`, `hasKey_erase_self`: what is found after a change.
2. `get?_overKey_of_ne`, `get?_overKey_self`: changing the value under a key.
3. `set_eq_overKey`: to set a key that is present is to change the value under it.
-/

namespace WorkflowRecipes

namespace Value

theorem isKey_iff {name : String} {key : Value} : key.isKey name = true ↔ key = .string name := by
  cases key <;> simp [isKey]

theorem isKey_string (name : String) : (Value.string name).isKey name = true :=
  isKey_iff.mpr rfl

/-- No key is two different strings. -/
theorem isKey_eq_false_of_isKey {name other : String} {key : Value} (h : key.isKey name = true)
    (hne : name ≠ other) : key.isKey other = false := by
  rw [isKey_iff] at h
  subst h
  simp [isKey, hne]

/-- A string is the same only as an equal one. -/
theorem same_string_iff {text : String} {value : Value} :
    (Value.string text).same value = true ↔ value = .string text := by
  cases value with
  | string other =>
    rw [same, beq_iff_eq, string.injEq]
    exact eq_comm
  | _ => simp [same]

theorem same_string (name : String) (key : Value) :
    (Value.string name).same key = key.isKey name := by
  rw [Bool.eq_iff_iff, same_string_iff, isKey_iff]

end Value

namespace Entries

variable {entries rest : Entries} {name other : String} {key value : Value}

theorem get?_cons_of_isKey (h : key.isKey name = true) :
    get? ((key, value) :: rest) name = some value := by
  simp [get?, h]

theorem get?_cons_of_not_isKey (h : key.isKey name = false) :
    get? ((key, value) :: rest) name = get? rest name := by
  simp [get?, h]

theorem hasKey_eq (entries : Entries) (name : String) :
    entries.hasKey name = (entries.get? name).isSome := by
  induction entries with
  | nil => rfl
  | cons entry rest ih =>
    obtain ⟨key, value⟩ := entry
    cases h : key.isKey name with
    | true => simp [hasKey, get?_cons_of_isKey h, h]
    | false =>
      rw [get?_cons_of_not_isKey h, ← ih]
      simp [hasKey, h]

/-- What is found under a key stands in an entry. -/
theorem mem_of_get?_eq_some (h : entries.get? name = some value) :
    (.string name, value) ∈ entries := by
  unfold get? at h
  rw [Option.map_eq_some_iff] at h
  obtain ⟨⟨key, value'⟩, hfind, rfl⟩ := h
  have hkey := List.find?_some hfind
  rw [Value.isKey_iff] at hkey
  exact hkey ▸ List.mem_of_find?_eq_some hfind

theorem hasKey_iff_exists_mem :
    entries.hasKey name = true ↔ ∃ value, (.string name, value) ∈ entries := by
  constructor
  · intro h
    rw [hasKey_eq] at h
    obtain ⟨value, hvalue⟩ := Option.isSome_iff_exists.mp h
    exact ⟨value, mem_of_get?_eq_some hvalue⟩
  · rintro ⟨value, hvalue⟩
    exact List.any_eq_true.mpr ⟨_, hvalue, Value.isKey_string name⟩

/-! ## Setting -/

theorem set_cons_of_isKey {old : Value} (h : key.isKey name = true) (value : Value) :
    set ((key, old) :: rest) name value = (key, value) :: rest := by
  simp [set, insert, Value.same_string, h]

theorem set_cons_of_not_isKey {old : Value} (h : key.isKey name = false) (value : Value) :
    set ((key, old) :: rest) name value = (key, old) :: set rest name value := by
  simp [set, insert, Value.same_string, h]

theorem get?_set_self (entries : Entries) (name : String) (value : Value) :
    (entries.set name value).get? name = some value := by
  induction entries with
  | nil => exact get?_cons_of_isKey (Value.isKey_string name)
  | cons entry rest ih =>
    obtain ⟨key, old⟩ := entry
    cases h : key.isKey name with
    | true => rw [set_cons_of_isKey h, get?_cons_of_isKey h]
    | false => rw [set_cons_of_not_isKey h, get?_cons_of_not_isKey h, ih]

theorem get?_set_of_ne (h : name ≠ other) (entries : Entries) (value : Value) :
    (entries.set name value).get? other = entries.get? other := by
  induction entries with
  | nil => exact get?_cons_of_not_isKey (Value.isKey_eq_false_of_isKey (Value.isKey_string name) h)
  | cons entry rest ih =>
    obtain ⟨key, old⟩ := entry
    cases hkey : key.isKey name with
    | true =>
      have hother := Value.isKey_eq_false_of_isKey hkey h
      rw [set_cons_of_isKey hkey, get?_cons_of_not_isKey hother, get?_cons_of_not_isKey hother]
    | false =>
      rw [set_cons_of_not_isKey hkey]
      cases hother : key.isKey other with
      | true => rw [get?_cons_of_isKey hother, get?_cons_of_isKey hother]
      | false => rw [get?_cons_of_not_isKey hother, get?_cons_of_not_isKey hother, ih]

theorem hasKey_set_self (entries : Entries) (name : String) (value : Value) :
    (entries.set name value).hasKey name = true := by
  rw [hasKey_eq, get?_set_self]
  rfl

theorem text?_set_self (entries : Entries) (name text : String) :
    (entries.set name (.string text)).text? name = some text := by
  rw [text?, get?_set_self]
  rfl

theorem text?_set_of_ne (h : name ≠ other) (entries : Entries) (value : Value) :
    (entries.set name value).text? other = entries.text? other := by
  rw [text?, get?_set_of_ne h, text?]

/-! ## Erasing -/

theorem erase_cons_of_isKey (h : key.isKey name = true) :
    erase ((key, value) :: rest) name = erase rest name := by
  simp [erase, h]

theorem erase_cons_of_not_isKey (h : key.isKey name = false) :
    erase ((key, value) :: rest) name = (key, value) :: erase rest name := by
  simp [erase, h]

theorem hasKey_erase_self (entries : Entries) (name : String) :
    (entries.erase name).hasKey name = false := by
  simp [hasKey, erase]

theorem erase_of_not_hasKey (h : entries.hasKey name = false) : entries.erase name = entries := by
  simp only [hasKey, List.any_eq_false, Bool.not_eq_true] at h
  exact List.filter_eq_self.mpr fun entry hmem => by simp [h entry hmem]

theorem erase_erase (entries : Entries) (name : String) :
    (entries.erase name).erase name = entries.erase name :=
  erase_of_not_hasKey (hasKey_erase_self entries name)

/-! ## Changing -/

section OverKey

variable {f : Value → Editing Value}

theorem overKey_cons_of_isKey (h : key.isKey name = true) :
    (overKey name f ((key, value) :: rest)).result = (key, (f value).result) :: rest := by
  rw [overKey, if_pos h]
  rfl

theorem overKey_cons_of_not_isKey (h : key.isKey name = false) :
    (overKey name f ((key, value) :: rest)).result =
      (key, value) :: (overKey name f rest).result := by
  rw [overKey, if_neg (by rw [h]; decide)]
  rfl

/-- Changing the value under a key leaves other keys alone. -/
theorem get?_overKey_of_ne (h : name ≠ other) (entries : Entries) :
    (overKey name f entries).result.get? other = entries.get? other := by
  induction entries with
  | nil => rfl
  | cons entry rest ih =>
    obtain ⟨key, value⟩ := entry
    cases hkey : key.isKey name with
    | true =>
      have hother := Value.isKey_eq_false_of_isKey hkey h
      rw [overKey_cons_of_isKey hkey, get?_cons_of_not_isKey hother, get?_cons_of_not_isKey hother]
    | false =>
      rw [overKey_cons_of_not_isKey hkey]
      cases hother : key.isKey other with
      | true => rw [get?_cons_of_isKey hother, get?_cons_of_isKey hother]
      | false => rw [get?_cons_of_not_isKey hother, get?_cons_of_not_isKey hother, ih]

theorem text?_overKey_of_ne (h : name ≠ other) (entries : Entries) :
    (overKey name f entries).result.text? other = entries.text? other := by
  rw [text?, get?_overKey_of_ne h, text?]

theorem get?_overKey_self (entries : Entries) :
    (overKey name f entries).result.get? name =
      (entries.get? name).map fun value => (f value).result := by
  induction entries with
  | nil => rfl
  | cons entry rest ih =>
    obtain ⟨key, value⟩ := entry
    cases hkey : key.isKey name with
    | true => rw [overKey_cons_of_isKey hkey, get?_cons_of_isKey hkey, get?_cons_of_isKey hkey]; rfl
    | false =>
      rw [overKey_cons_of_not_isKey hkey, get?_cons_of_not_isKey hkey, get?_cons_of_not_isKey hkey,
        ih]

/-- To set a key that is present is to change the value under it. -/
theorem set_eq_overKey (h : entries.hasKey name = true) (value : Value) :
    entries.set name value =
      (overKey name (fun _ => (pure value : Editing Value)) entries).result := by
  induction entries with
  | nil => cases h
  | cons entry rest ih =>
    obtain ⟨key, old⟩ := entry
    cases hkey : key.isKey name with
    | true => rw [set_cons_of_isKey hkey, overKey_cons_of_isKey hkey]; rfl
    | false =>
      have hrest : hasKey rest name = true := by simpa [hasKey, hkey] using h
      rw [set_cons_of_not_isKey hkey, overKey_cons_of_not_isKey hkey, ih hrest]

end OverKey

end Entries

end WorkflowRecipes
