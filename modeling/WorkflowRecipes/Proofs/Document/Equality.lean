import WorkflowRecipes.Yaml.Value

/-!
# Equality of documents

Equality is finer than sameness: the order of a mapping's entries and the signs of zeros count. It
is decidable, so that what recipes make of a small document can be evaluated.
-/

namespace WorkflowRecipes.Value

mutual

/-- Whether two trees are equal. -/
def equal : Value → Value → Bool
  | .null, .null => true
  | .bool a, .bool b => a == b
  | .number a, .number b => decide (a = b)
  | .string a, .string b => a == b
  | .sequence a, .sequence b => equalItems a b
  | .mapping a, .mapping b => equalEntries a b
  | .tagged s a, .tagged t b => s == t && equal a b
  | _, _ => false

/-- Whether two sequences are equal. -/
def equalItems : List Value → List Value → Bool
  | [], [] => true
  | a :: as, b :: bs => equal a b && equalItems as bs
  | _, _ => false

/-- Whether two mappings are equal. -/
def equalEntries : List (Value × Value) → List (Value × Value) → Bool
  | [], [] => true
  | (k, v) :: rest, (k', v') :: rest' => equal k k' && equal v v' && equalEntries rest rest'
  | _, _ => false

end

mutual

theorem equal_iff : ∀ {a b : Value}, equal a b = true ↔ a = b
  | .null, b => by cases b <;> simp [equal]
  | .bool _, b => by cases b <;> simp [equal]
  | .number _, b => by cases b <;> simp [equal]
  | .string _, b => by cases b <;> simp [equal]
  | .sequence items, b => by cases b <;> simp [equal, equalItems_iff (a := items)]
  | .mapping entries, b => by cases b <;> simp [equal, equalEntries_iff (a := entries)]
  | .tagged _ value, b => by cases b <;> simp [equal, equal_iff (a := value)]

theorem equalItems_iff : ∀ {a b : List Value}, equalItems a b = true ↔ a = b
  | [], b => by cases b <;> simp [equalItems]
  | item :: rest, b => by
    cases b <;> simp [equalItems, equal_iff (a := item), equalItems_iff (a := rest)]

theorem equalEntries_iff : ∀ {a b : List (Value × Value)}, equalEntries a b = true ↔ a = b
  | [], b => by cases b <;> simp [equalEntries]
  | (key, value) :: rest, b => by
    cases b with
    | nil => simp [equalEntries]
    | cons entry rest' =>
      obtain ⟨key', value'⟩ := entry
      simp [equalEntries, equal_iff (a := key), equal_iff (a := value),
        equalEntries_iff (a := rest)]

end

instance : DecidableEq Value := fun _ _ => decidable_of_iff _ equal_iff

end WorkflowRecipes.Value
