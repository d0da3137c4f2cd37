import Mathlib.Logic.Basic
import WorkflowRecipes.Proofs.Document.Stepwise

/-!
# Strings that are changed

The strings of a document are its string scalars at any depth, through mappings, sequences and tags;
keys are not among them. A walk over them changes each by itself, once, and leaves the rest.

Results:
1. `result_overStrings`, `edits_overStrings`: what a walk over the strings makes of a document, and
   the edits it notes.
2. `stringsWithin_mapStrings`: the strings of a document whose strings were changed.
3. `mapStrings_eq_self`, `overStrings_eq_pure`: where no string changes nothing does.
-/

namespace WorkflowRecipes.Value

variable {f : Location → String → Editing String} {g : String → String}

/-! ## What is meant -/

mutual

/-- The strings below a location, each with its own, keys left out. -/
def stringsAt (location : Location) : Value → List (Location × String)
  | .string s => [(location, s)]
  | .mapping entries => stringsOfValues location entries
  | .sequence items => stringsOfItemsAt location 0 items
  | .tagged _ value => stringsAt location value
  | _ => []

/-- The strings in the values of a mapping. -/
def stringsOfValues (location : Location) : List (Value × Value) → List (Location × String)
  | [] => []
  | (key, value) :: rest =>
    stringsAt (location.key key.keyText) value ++ stringsOfValues location rest

/-- The strings in the items of a sequence, from position `i` on. -/
def stringsOfItemsAt (location : Location) (i : Nat) : List Value → List (Location × String)
  | [] => []
  | item :: rest => stringsAt (location.index i) item ++ stringsOfItemsAt location (i + 1) rest

end

/-- The strings of a document with their locations, keys left out. -/
def stringsWithin (doc : Value) : List (Location × String) := doc.stringsAt Location.root

mutual

/-- A value with each of its strings changed, keys left alone. -/
def mapStrings (g : String → String) : Value → Value
  | .string s => .string (g s)
  | .mapping entries => .mapping (mapStringsOfValues g entries)
  | .sequence items => .sequence (mapStringsOfItems g items)
  | .tagged tag value => .tagged tag (mapStrings g value)
  | value => value

/-- The entries of a mapping. -/
def mapStringsOfValues (g : String → String) : List (Value × Value) → List (Value × Value)
  | [] => []
  | (key, value) :: rest => (key, mapStrings g value) :: mapStringsOfValues g rest

/-- The items of a sequence. -/
def mapStringsOfItems (g : String → String) : List Value → List Value
  | [] => []
  | item :: rest => mapStrings g item :: mapStringsOfItems g rest

end

/-! ## What the walk does -/

mutual

theorem result_overStringsAt (h : ∀ location text, (f location text).result = g text)
    (location : Location) : ∀ value : Value,
      (overStringsAt f location value).result = mapStrings g value
  | .string s => congrArg Value.string (h location s)
  | .mapping entries => congrArg Value.mapping (result_overStringsOfEntries h location entries)
  | .sequence items => congrArg Value.sequence (result_overStringsOfItems h location 0 items)
  | .tagged tag value => congrArg (Value.tagged tag) (result_overStringsAt h location value)
  | .number _ | .bool _ | .null => rfl

theorem result_overStringsOfEntries (h : ∀ location text, (f location text).result = g text)
    (location : Location) : ∀ entries : List (Value × Value),
      (overStringsOfEntries f location entries).result = mapStringsOfValues g entries
  | [] => rfl
  | (key, value) :: rest => congrArg₂ (fun value rest => (key, value) :: rest)
      (result_overStringsAt h (location.key key.keyText) value)
      (result_overStringsOfEntries h location rest)

theorem result_overStringsOfItems (h : ∀ location text, (f location text).result = g text)
    (location : Location) (i : Nat) : ∀ items : List Value,
      (overStringsOfItems f location i items).result = mapStringsOfItems g items
  | [] => rfl
  | item :: rest => congrArg₂ List.cons (result_overStringsAt h (location.index i) item)
      (result_overStringsOfItems h location (i + 1) rest)

end

/-- A walk over the strings changes each of them and nothing else. -/
theorem result_overStrings (h : ∀ location text, (f location text).result = g text)
    (doc : Value) : (overStrings f doc).result = doc.mapStrings g :=
  result_overStringsAt h Location.root doc

mutual

theorem edits_overStringsAt (f : Location → String → Editing String) (location : Location) :
    ∀ value : Value, (overStringsAt f location value).edits =
      (stringsAt location value).flatMap fun s => (f s.1 s.2).edits
  | .string _ => rfl
  | .mapping entries => (List.append_nil _).trans (edits_overStringsOfEntries f location entries)
  | .sequence items => (List.append_nil _).trans (edits_overStringsOfItems f location 0 items)
  | .tagged _ value => (List.append_nil _).trans (edits_overStringsAt f location value)
  | .number _ | .bool _ | .null => rfl

theorem edits_overStringsOfEntries (f : Location → String → Editing String) (location : Location) :
    ∀ entries : List (Value × Value), (overStringsOfEntries f location entries).edits =
      (stringsOfValues location entries).flatMap fun s => (f s.1 s.2).edits
  | [] => rfl
  | (key, value) :: rest => by
    have hvalue := edits_overStringsAt f (location.key key.keyText) value
    have hrest := edits_overStringsOfEntries f location rest
    rw [overStringsOfEntries, stringsOfValues, List.flatMap_append, ← hvalue, ← hrest]
    simp only [Editing.edits_bind, Editing.edits_pure, List.append_nil]

theorem edits_overStringsOfItems (f : Location → String → Editing String) (location : Location)
    (i : Nat) : ∀ items : List Value, (overStringsOfItems f location i items).edits =
      (stringsOfItemsAt location i items).flatMap fun s => (f s.1 s.2).edits
  | [] => rfl
  | item :: rest => by
    have hitem := edits_overStringsAt f (location.index i) item
    have hrest := edits_overStringsOfItems f location (i + 1) rest
    rw [overStringsOfItems, stringsOfItemsAt, List.flatMap_append, ← hitem, ← hrest]
    simp only [Editing.edits_bind, Editing.edits_pure, List.append_nil]

end

/-- The edits of a walk over the strings are those of the strings, in order. -/
theorem edits_overStrings (f : Location → String → Editing String) (doc : Value) :
    (overStrings f doc).edits = doc.stringsWithin.flatMap fun s => (f s.1 s.2).edits :=
  edits_overStringsAt f Location.root doc

/-! ## Strings after the change -/

mutual

theorem stringsAt_mapStrings (g : String → String) (location : Location) : ∀ value : Value,
    stringsAt location (mapStrings g value) =
      (stringsAt location value).map fun s => (s.1, g s.2)
  | .string _ => rfl
  | .mapping entries => stringsOfValues_mapStringsOfValues g location entries
  | .sequence items => stringsOfItemsAt_mapStringsOfItems g location 0 items
  | .tagged _ value => stringsAt_mapStrings g location value
  | .number _ | .bool _ | .null => rfl

theorem stringsOfValues_mapStringsOfValues (g : String → String) (location : Location) :
    ∀ entries : List (Value × Value),
      stringsOfValues location (mapStringsOfValues g entries) =
        (stringsOfValues location entries).map fun s => (s.1, g s.2)
  | [] => rfl
  | (key, value) :: rest => by
    have hvalue := stringsAt_mapStrings g (location.key key.keyText) value
    have hrest := stringsOfValues_mapStringsOfValues g location rest
    rw [mapStringsOfValues, stringsOfValues, stringsOfValues, List.map_append, hvalue, hrest]

theorem stringsOfItemsAt_mapStringsOfItems (g : String → String) (location : Location) (i : Nat) :
    ∀ items : List Value, stringsOfItemsAt location i (mapStringsOfItems g items) =
      (stringsOfItemsAt location i items).map fun s => (s.1, g s.2)
  | [] => rfl
  | item :: rest => by
    have hitem := stringsAt_mapStrings g (location.index i) item
    have hrest := stringsOfItemsAt_mapStringsOfItems g location (i + 1) rest
    rw [mapStringsOfItems, stringsOfItemsAt, stringsOfItemsAt, List.map_append, hitem, hrest]

end

/-- The strings of a changed document are the changed strings, in their places. -/
theorem stringsWithin_mapStrings (g : String → String) (doc : Value) :
    (doc.mapStrings g).stringsWithin = doc.stringsWithin.map fun s => (s.1, g s.2) :=
  stringsAt_mapStrings g Location.root doc

/-! ## Strings that stay -/

/-- Each of the strings stays as it is. -/
def Keeps (g : String → String) (strings : List (Location × String)) : Prop :=
  ∀ s ∈ strings, g s.2 = s.2

theorem keeps_append {first second : List (Location × String)} :
    Keeps g (first ++ second) ↔ Keeps g first ∧ Keeps g second :=
  List.forall_mem_append

mutual

theorem mapStrings_eq_self_at (location : Location) : ∀ value : Value,
    Keeps g (stringsAt location value) → mapStrings g value = value
  | .string _, h => congrArg Value.string (h _ List.mem_cons_self)
  | .mapping entries, h => congrArg Value.mapping (mapStringsOfValues_eq_self location entries h)
  | .sequence items, h => congrArg Value.sequence (mapStringsOfItems_eq_self location 0 items h)
  | .tagged tag value, h => congrArg (Value.tagged tag) (mapStrings_eq_self_at location value h)
  | .number _, _ | .bool _, _ | .null, _ => rfl

theorem mapStringsOfValues_eq_self (location : Location) : ∀ entries : List (Value × Value),
    Keeps g (stringsOfValues location entries) → mapStringsOfValues g entries = entries
  | [], _ => rfl
  | (key, value) :: rest, h => by
    obtain ⟨hvalue, hrest⟩ := keeps_append.mp h
    rw [mapStringsOfValues, mapStrings_eq_self_at _ value hvalue,
      mapStringsOfValues_eq_self location rest hrest]

theorem mapStringsOfItems_eq_self (location : Location) (i : Nat) : ∀ items : List Value,
    Keeps g (stringsOfItemsAt location i items) → mapStringsOfItems g items = items
  | [], _ => rfl
  | item :: rest, h => by
    obtain ⟨hitem, hrest⟩ := keeps_append.mp h
    rw [mapStringsOfItems, mapStrings_eq_self_at _ item hitem,
      mapStringsOfItems_eq_self location (i + 1) rest hrest]

end

theorem mapStrings_eq_self {doc : Value} (h : Keeps g doc.stringsWithin) :
    doc.mapStrings g = doc :=
  mapStrings_eq_self_at Location.root doc h

/-- A walk that leaves every string alone does nothing at all. -/
theorem overStrings_eq_pure {doc : Value}
    (hresult : ∀ location text, (f location text).result = g text)
    (h : ∀ s ∈ doc.stringsWithin, f s.1 s.2 = pure s.2) : overStrings f doc = pure doc := by
  have hkeeps : Keeps g doc.stringsWithin := by
    intro s hs
    rw [← hresult s.1, h s hs]
    rfl
  have hedits : (overStrings f doc).edits = [] := by
    rw [edits_overStrings, List.flatMap_eq_nil_iff]
    intro s hs
    rw [h s hs]
    rfl
  have hdoc := (result_overStrings hresult doc).trans (mapStrings_eq_self hkeeps)
  exact congrArg₂ Editing.mk hdoc hedits

end WorkflowRecipes.Value
