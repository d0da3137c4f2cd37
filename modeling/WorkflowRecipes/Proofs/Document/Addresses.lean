import Mathlib.Data.List.Infix
import WorkflowRecipes.Yaml.Value

/-!
# Addresses in a document

An address is a list of numbers that lead from the top of a document down to a node: the number of
an entry in its mapping, of an item in its sequence, or zero for the value under a tag. Unlike a
location it names one node only, also where keys have the same text. Of two addresses that part
somewhere, one precedes the other in the document.

The shell of a node is what it is by itself, without what its parts are.

Results:
1. `node?_put_self`, `node?_put_of_parted`, `put_of_node?`, `put_append`: putting a node at an
   address.
2. `shell_node?_put`: it keeps the shells of all nodes that are not inside that one.
-/

namespace WorkflowRecipes

/-- A way from the top of a document to a node. -/
abbrev Address := List Nat

namespace Address

/-- One address precedes another if they part at some node, where the first goes on into the earlier
part. -/
inductive Precedes : Address → Address → Prop
  | here {i j : Nat} (h : i < j) (address other : Address) : Precedes (i :: address) (j :: other)
  | inside {address other : Address} (i : Nat) (h : Precedes address other) :
      Precedes (i :: address) (i :: other)

/-- Two addresses part at some node, so that neither node is inside the other. -/
def Parted (address other : Address) : Prop := Precedes address other ∨ Precedes other address

variable {address other : Address}

theorem Precedes.ne (h : Precedes address other) : address ≠ other := by
  induction h with
  | here h => exact fun heq => Nat.ne_of_lt h (List.cons.inj heq).1
  | inside i _ ih => exact fun heq => ih (List.cons.inj heq).2

theorem parted_cons {i : Nat} (h : Parted (i :: address) (i :: other)) : Parted address other := by
  rcases h with h | h
  · cases h with
    | here h => exact absurd h (Nat.lt_irrefl i)
    | inside _ h => exact .inl h
  · cases h with
    | here h => exact absurd h (Nat.lt_irrefl i)
    | inside _ h => exact .inr h

theorem not_parted_nil : ¬ Parted [] address := by
  rintro (h | h) <;> cases h

theorem not_parted_nil_right : ¬ Parted address [] := by
  rintro (h | h) <;> cases h

end Address

namespace Value

/-- The values that stand directly in a value. -/
def children : Value → List Value
  | .mapping entries => entries.map Prod.snd
  | .sequence items => items
  | .tagged _ value => [value]
  | _ => []

mutual

/-- What holds of a value whenever it holds of all that stand directly in it holds of every
value. -/
theorem children_induction {motive : Value → Prop}
    (h : ∀ value, (∀ child ∈ value.children, motive child) → motive value) :
    ∀ value : Value, motive value
  | .mapping entries => h _ (children_induction_entries h entries)
  | .sequence items => h _ (children_induction_items h items)
  | .tagged _ value => h _ (List.forall_mem_singleton.mpr (children_induction h value))
  | .string _ | .number _ | .bool _ | .null => h _ (List.forall_mem_nil _)

theorem children_induction_entries {motive : Value → Prop}
    (h : ∀ value, (∀ child ∈ value.children, motive child) → motive value) :
    ∀ entries : List (Value × Value), ∀ child ∈ entries.map Prod.snd, motive child
  | [] => List.forall_mem_nil _
  | (_, value) :: rest =>
    List.forall_mem_cons.mpr ⟨children_induction h value, children_induction_entries h rest⟩

theorem children_induction_items {motive : Value → Prop}
    (h : ∀ value, (∀ child ∈ value.children, motive child) → motive value) :
    ∀ items : List Value, ∀ child ∈ items, motive child
  | [] => List.forall_mem_nil _
  | item :: rest =>
    List.forall_mem_cons.mpr ⟨children_induction h item, children_induction_items h rest⟩

end

/-- What a value is by itself: nulls stand for the values in it, but its tag, the keys of its
entries in their order, and the number of its items are kept. -/
def shell : Value → Value
  | .mapping entries => .mapping (entries.map fun e => (e.1, .null))
  | .sequence items => .sequence (items.map fun _ => .null)
  | .tagged tag _ => .tagged tag .null
  | value => value

/-- The node at an address. -/
def node? : Value → Address → Option Value
  | value, [] => some value
  | value, i :: address => value.children[i]?.bind fun child => child.node? address

/-- Change one of the values that stand directly in a value. -/
def overChild (i : Nat) (f : Value → Value) : Value → Value
  | .mapping entries => .mapping (entries.modify i fun e => (e.1, f e.2))
  | .sequence items => .sequence (items.modify i f)
  | .tagged tag value => .tagged tag (if i = 0 then f value else value)
  | value => value

/-- The document with another node at an address. -/
def put (doc : Value) (address : Address) (new : Value) : Value :=
  match address with
  | [] => new
  | i :: address => doc.overChild i fun child => child.put address new

variable {doc old new : Value} {address other : Address} {i j : Nat}

theorem node?_cons (value : Value) (i : Nat) (address : Address) :
    value.node? (i :: address) = value.children[i]?.bind fun child => child.node? address := rfl

theorem put_cons (value new : Value) (i : Nat) (address : Address) :
    value.put (i :: address) new = value.overChild i fun child => child.put address new := rfl

/-! ## One of the values in a value -/

theorem children_overChild (i : Nat) (f : Value → Value) : ∀ value : Value,
    (value.overChild i f).children = value.children.modify i f
  | .mapping entries => by
    refine List.ext_getElem? fun j => ?_
    by_cases hj : i = j <;> simp [overChild, children, hj, Function.comp_def]
  | .sequence items => rfl
  | .tagged tag value => by cases i <;> simp [overChild, children]
  | .string _ | .number _ | .bool _ | .null => by simp [overChild, children]

theorem shell_overChild (i : Nat) (f : Value → Value) : ∀ value : Value,
    (value.overChild i f).shell = value.shell
  | .mapping entries => by
    refine congrArg Value.mapping (List.ext_getElem? fun j => ?_)
    by_cases hj : i = j <;> simp [hj, Function.comp_def]
  | .sequence items => by simp [overChild, shell, List.map_const']
  | .tagged _ _ => rfl
  | .string _ | .number _ | .bool _ | .null => rfl

theorem modify_congr {α : Type} {f g : α → α} {list : List α}
    (h : ∀ a, list[i]? = some a → f a = g a) : list.modify i f = list.modify i g := by
  refine List.ext_getElem? fun j => ?_
  rw [List.getElem?_modify, List.getElem?_modify]
  split
  · next hij =>
    subst hij
    cases ha : list[i]? with
    | none => rfl
    | some a => exact congrArg some (h a ha)
  · rfl

/-- What a change makes of a value depends on what it makes of the one value in question. -/
theorem overChild_congr {f g : Value → Value} : ∀ {value : Value},
    (∀ child, value.children[i]? = some child → f child = g child) →
      value.overChild i f = value.overChild i g
  | .mapping entries, h => by
    refine congrArg Value.mapping (modify_congr fun entry hentry => ?_)
    rw [h entry.2 (by rw [children, List.getElem?_map, hentry, Option.map_some])]
  | .sequence items, h => congrArg Value.sequence (modify_congr h)
  | .tagged tag value, h => by
    cases i with
    | zero => exact congrArg (Value.tagged tag) (h value rfl)
    | succ i => rfl
  | .string _, _ | .number _, _ | .bool _, _ | .null, _ => rfl

theorem overChild_id (i : Nat) : ∀ value : Value, (value.overChild i fun child => child) = value
  | .mapping entries => congrArg Value.mapping (List.modify_id i entries)
  | .sequence items => congrArg Value.sequence (List.modify_id i items)
  | .tagged tag value => congrArg (Value.tagged tag) (ite_self value)
  | .string _ | .number _ | .bool _ | .null => rfl

/-! ## A node put at an address -/

theorem node?_append (doc : Value) (address other : Address) :
    doc.node? (address ++ other) = (doc.node? address).bind fun value => value.node? other := by
  induction address generalizing doc with
  | nil => rfl
  | cons i address ih =>
    rw [List.cons_append, node?_cons, node?_cons, Option.bind_assoc]
    exact Option.bind_congr fun child _ => ih child

theorem children_put_cons (doc new : Value) (i : Nat) (address : Address) (j : Nat) :
    (doc.put (i :: address) new).children[j]? =
      if i = j then doc.children[j]?.map fun child => child.put address new
      else doc.children[j]? := by
  rw [put_cons, children_overChild, List.getElem?_modify]
  split <;> simp

/-- What is put at the address of a node stands there. -/
theorem node?_put_self (h : doc.node? address = some old) (new : Value) :
    (doc.put address new).node? address = some new := by
  induction address generalizing doc with
  | nil => rfl
  | cons i address ih =>
    rw [node?_cons] at h
    obtain ⟨child, hchild, hold⟩ := Option.bind_eq_some_iff.mp h
    rw [node?_cons, children_put_cons, if_pos rfl, hchild]
    exact ih hold

/-- What stands at addresses that part from this one stays. -/
theorem node?_put_of_parted (h : Address.Parted address other) (doc new : Value) :
    (doc.put address new).node? other = doc.node? other := by
  induction address generalizing doc other with
  | nil => exact absurd h Address.not_parted_nil
  | cons i address ih =>
    cases other with
    | nil => exact absurd h Address.not_parted_nil_right
    | cons j other =>
      rw [node?_cons, children_put_cons, node?_cons]
      split
      · next hij =>
        subst hij
        rw [Option.bind_map]
        exact Option.bind_congr fun child _ => ih (Address.parted_cons h) child
      · rfl

/-- Every node that is not inside the one at the address is by itself what it was. -/
theorem shell_node?_put (h : ¬ address <+: other) (doc new : Value) :
    ((doc.put address new).node? other).map shell = (doc.node? other).map shell := by
  induction address generalizing doc other with
  | nil => exact absurd List.nil_prefix h
  | cons i address ih =>
    cases other with
    | nil => exact congrArg some (shell_overChild i _ doc)
    | cons j other =>
      rw [node?_cons, children_put_cons, node?_cons]
      split
      · next hij =>
        subst hij
        have hinside : ¬ address <+: other := fun hp => h (List.cons_prefix_cons.mpr ⟨rfl, hp⟩)
        rw [Option.bind_map, Option.map_bind, Option.map_bind]
        exact Option.bind_congr fun child _ => ih hinside child
      · rfl

/-- To put what stands at an address there again changes nothing. -/
theorem put_of_node? (h : doc.node? address = some old) : doc.put address old = doc := by
  induction address generalizing doc with
  | nil => exact (Option.some.inj h).symm
  | cons i address ih =>
    have hsame : ∀ child, doc.children[i]? = some child → child.put address old = child :=
      fun child hchild => ih (by rwa [node?_cons, hchild] at h)
    rw [put_cons, overChild_congr hsame, overChild_id]

/-- To put a node inside another one is to put that one with the node put in it. -/
theorem put_append (h : doc.node? address = some old) (inner : Address) (new : Value) :
    doc.put (address ++ inner) new = doc.put address (old.put inner new) := by
  induction address generalizing doc with
  | nil => rw [← Option.some.inj h]; rfl
  | cons i address ih =>
    refine overChild_congr fun child hchild => ih ?_
    rwa [node?_cons, hchild] at h

end Value

end WorkflowRecipes
