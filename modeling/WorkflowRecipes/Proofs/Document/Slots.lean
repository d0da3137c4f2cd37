import WorkflowRecipes.Proofs.Document.Addresses
import WorkflowRecipes.Proofs.Document.Framing

/-!
# Slots

A chain of keys leads to at most one node of a document, the slot. What a change at the end of the
chain does, with whatever effects, is to change the value in the slot and to put what comes of it in
its place. So looking and changing fit together: what was written is found, what other chains lead
to is not touched, and the old value can be put back.

Results:
1. `overKeys_of_lookup?_none`, `exists_overKeys_eq_put`: what a change does, in any monad.
2. `lookup?_overKeys_of_parted`, `result_overKeys_overKeys`: other chains, and a second change.
3. `update?_lens`: the laws of looking and changing together.
-/

namespace WorkflowRecipes

instance : LawfulMonad Editing :=
  LawfulMonad.mk' Editing
    (fun change => congrArg (Editing.mk change.result) (List.append_nil change.edits))
    (fun _ _ => rfl)
    (fun change f g => congrArg (Editing.mk (g (f change.result).result).result)
      (List.append_assoc change.edits (f change.result).edits (g (f change.result).result).edits))

namespace Entries

variable {entries : Entries} {name : String} {child : Value}

theorem overKey_of_get?_none {m : Type → Type} [Monad m] [LawfulMonad m] {f : Value → m Value}
    (h : entries.get? name = none) : overKey name f entries = pure entries := by
  induction entries with
  | nil => rfl
  | cons entry rest ih =>
    obtain ⟨key, value⟩ := entry
    cases hkey : key.isKey name with
    | true =>
      rw [get?_cons_of_isKey hkey] at h
      cases h
    | false =>
      rw [get?_cons_of_not_isKey hkey] at h
      rw [overKey, if_neg (by rw [hkey]; decide), ih h, pure_bind]

/-- What is found under a key stands in one entry, and that entry is changed. -/
theorem exists_overKey_eq_modify (h : entries.get? name = some child) :
    ∃ i, (entries.map Prod.snd)[i]? = some child ∧
      ∀ {m : Type → Type} [Monad m] [LawfulMonad m] (f : Value → m Value),
        overKey name f entries = (fun new => entries.modify i fun e => (e.1, new)) <$> f child := by
  induction entries with
  | nil => cases h
  | cons entry rest ih =>
    obtain ⟨key, value⟩ := entry
    cases hkey : key.isKey name with
    | true =>
      rw [get?_cons_of_isKey hkey] at h
      refine ⟨0, h, fun f => ?_⟩
      rw [overKey, if_pos hkey, bind_pure_comp, Option.some.inj h]
      rfl
    | false =>
      rw [get?_cons_of_not_isKey hkey] at h
      obtain ⟨i, hi, hover⟩ := ih h
      refine ⟨i + 1, hi, fun f => ?_⟩
      rw [overKey, if_neg (by rw [hkey]; decide), hover, bind_pure_comp, Functor.map_map]
      rfl

end Entries

namespace Value

variable {doc child old : Value} {name other : String} {keys others : List String}

/-! ## One key -/

section OneKey

variable {m : Type → Type} [Monad m] [LawfulMonad m]

theorem overKey_tagged (f : Value → m Value) (tag : String) (value : Value) :
    overKey name f (.tagged tag value) = Value.tagged tag <$> overKey name f value :=
  bind_pure_comp _ _

theorem overKey_mapping (f : Value → m Value) (entries : Entries) :
    overKey name f (.mapping entries) = Value.mapping <$> Entries.overKey name f entries :=
  bind_pure_comp _ _

theorem overKey_of_get?_none {f : Value → m Value} : ∀ {doc : Value}, doc.get? name = none →
    overKey name f doc = pure doc
  | .mapping entries, h => by
    have hentries : Entries.get? entries name = none := h
    rw [overKey_mapping, Entries.overKey_of_get?_none hentries, map_pure]
  | .tagged tag value, h => by
    have ih : overKey name f value = pure value := overKey_of_get?_none h
    rw [overKey_tagged, ih, map_pure]
  | .sequence _, _ | .string _, _ | .number _, _ | .bool _, _ | .null, _ => rfl

end OneKey

/-- What is found under a key is a node, and a change under the key is one of that node. -/
theorem exists_overKey_eq_put : ∀ {doc : Value}, doc.get? name = some child →
    ∃ address, doc.node? address = some child ∧
      ∀ {m : Type → Type} [Monad m] [LawfulMonad m] (f : Value → m Value),
        overKey name f doc = doc.put address <$> f child
  | .mapping entries, h => by
    have hentries : Entries.get? entries name = some child := h
    obtain ⟨i, hi, hover⟩ := Entries.exists_overKey_eq_modify hentries
    refine ⟨[i], ?_, fun f => ?_⟩
    · rw [node?_cons, children, hi]
      rfl
    · rw [overKey_mapping, hover, Functor.map_map]
      rfl
  | .tagged tag value, h => by
    have hvalue : value.get? name = some child := h
    obtain ⟨address, hnode, hover⟩ := exists_overKey_eq_put hvalue
    refine ⟨0 :: address, hnode, fun f => ?_⟩
    rw [overKey_tagged, hover, Functor.map_map]
    rfl
  | .sequence _, h | .string _, h | .number _, h | .bool _, h | .null, h => by cases h

theorem get?_overKey_of_ne (h : name ≠ other) (f : Value → Editing Value) (doc : Value) :
    (overKey name f doc).result.get? other = doc.get? other := by
  rw [get?, overKey, entries?_overEntries, get?]
  cases doc.entries? with
  | none => rfl
  | some entries => exact Entries.get?_overKey_of_ne h entries

/-! ## Chains of keys -/

/-- Where a chain of keys leads nowhere, nothing is changed. -/
theorem overKeys_of_lookup?_none {m : Type → Type} [Monad m] [LawfulMonad m] {f : Value → m Value}
    (h : doc.lookup? keys = none) : overKeys keys f doc = pure doc := by
  induction keys generalizing doc with
  | nil => cases h
  | cons name rest ih =>
    rw [lookup?_cons] at h
    rw [overKeys]
    cases hchild : doc.get? name with
    | none => exact overKey_of_get?_none hchild
    | some child =>
      rw [hchild, Option.bind_some] at h
      obtain ⟨address, hnode, hover⟩ := exists_overKey_eq_put hchild
      rw [hover, ih h, map_pure, put_of_node? hnode]

/-- The value that a chain of keys leads to is a node, and a change at the end of the chain is one
of that node. -/
theorem exists_overKeys_eq_put (h : doc.lookup? keys = some old) :
    ∃ address, doc.node? address = some old ∧
      ∀ {m : Type → Type} [Monad m] [LawfulMonad m] (f : Value → m Value),
        overKeys keys f doc = doc.put address <$> f old := by
  induction keys generalizing doc with
  | nil =>
    cases h
    exact ⟨[], rfl, fun f => (id_map (f _)).symm⟩
  | cons name rest ih =>
    rw [lookup?_cons] at h
    obtain ⟨child, hchild, hold⟩ := Option.bind_eq_some_iff.mp h
    obtain ⟨address, hnode, hover⟩ := exists_overKey_eq_put hchild
    obtain ⟨inner, hinner, hovers⟩ := ih hold
    refine ⟨address ++ inner, ?_, fun f => ?_⟩
    · rw [node?_append, hnode]
      exact hinner
    · rw [overKeys, hover, hovers, Functor.map_map]
      exact congrArg (· <$> f old) (funext fun new => (put_append hnode inner new).symm)

/-- A change at the end of a chain of keys is not seen along chains that part from it. -/
theorem lookup?_overKeys_of_parted (hother : ¬ others <+: keys) (hkeys : ¬ keys <+: others)
    (f : Value → Editing Value) (doc : Value) :
    (overKeys keys f doc).result.lookup? others = doc.lookup? others := by
  induction keys generalizing doc others with
  | nil => exact absurd List.nil_prefix hkeys
  | cons name rest ih =>
    cases others with
    | nil => exact absurd List.nil_prefix hother
    | cons other others =>
      rw [overKeys, lookup?_cons, lookup?_cons]
      by_cases hname : name = other
      · subst hname
        rw [List.prefix_cons_inj] at hother hkeys
        rw [get?_overKey, Option.bind_map]
        exact Option.bind_congr fun child _ => ih hother hkeys child
      · rw [get?_overKey_of_ne hname]

theorem result_overKeys_overKeys (keys : List String) (f g : Value → Editing Value) (doc : Value) :
    (overKeys keys f (overKeys keys g doc).result).result =
      (overKeys keys (fun value => f (g value).result) doc).result := by
  induction keys generalizing doc with
  | nil => rfl
  | cons name rest ih => exact result_overKey_overKey ih name doc

/-- An update is a change without edits. -/
theorem update?_eq_map (doc : Value) (keys : List String) (f : Value → Value) :
    doc.update? keys f = (doc.lookup? keys).map fun _ =>
      (overKeys keys (fun value => (pure (f value) : Editing Value)) doc).result := by
  cases hold : doc.lookup? keys with
  | none => rw [update?, hold]; rfl
  | some old =>
    obtain ⟨address, -, hput⟩ := exists_overKeys_eq_put hold
    rw [update?, hold, Option.isSome_some, if_pos rfl, hput, hput]
    rfl

/-- The laws of looking and changing together, for a document and a chain of keys. A change does
nothing if nothing is found at the end of the chain. Otherwise what is found is a node, the slot,
and a change is one of that node. What is written to the slot is found there and along no chain that
parts from this one; outside the slot all nodes are by themselves what they were, all mappings with
the same keys in the same order; and the document is as before once the old value is put back. -/
theorem update?_lens (doc : Value) (keys : List String) :
    (∀ f, (doc.update? keys f).isSome = (doc.lookup? keys).isSome) ∧
    (doc.lookup? keys = none →
      ∀ {m : Type → Type} [Monad m] [LawfulMonad m] (f : Value → m Value),
        overKeys keys f doc = pure doc) ∧
    ∀ old, doc.lookup? keys = some old → ∃ slot, doc.node? slot = some old ∧
      (∀ {m : Type → Type} [Monad m] [LawfulMonad m] (f : Value → m Value),
        overKeys keys f doc = doc.put slot <$> f old) ∧
      ∀ new, ∃ after, (doc.update? keys fun _ => new) = some after ∧
        after.lookup? keys = some new ∧
        (∀ others, ¬ others <+: keys → ¬ keys <+: others →
          after.lookup? others = doc.lookup? others) ∧
        (∀ address, ¬ slot <+: address →
          (after.node? address).map shell = (doc.node? address).map shell) ∧
        (after.update? keys fun _ => old) = some doc := by
  refine ⟨fun f => ?_, fun hnone _ _ _ f => overKeys_of_lookup?_none hnone, fun old hold => ?_⟩
  · rw [update?_eq_map, Option.isSome_map]
  obtain ⟨slot, hslot, hput⟩ := exists_overKeys_eq_put hold
  refine ⟨slot, hslot, hput, fun new => ?_⟩
  have hafter : (overKeys keys (fun _ => (pure new : Editing Value)) doc).result =
      doc.put slot new := congrArg Editing.result (hput _)
  have hfound : (doc.put slot new).lookup? keys = some new := by
    rw [← hafter, lookup?_overKeys, hold]
    rfl
  refine ⟨doc.put slot new, ?_, hfound, fun others hothers hkeys => ?_, fun address haddress => ?_,
    ?_⟩
  · rw [update?_eq_map, hold, Option.map_some, hafter]
  · rw [← hafter, lookup?_overKeys_of_parted hothers hkeys]
  · exact shell_node?_put haddress doc new
  · rw [update?_eq_map, hfound, Option.map_some, ← hafter, result_overKeys_overKeys]
    have hback : (overKeys keys (fun _ => (pure old : Editing Value)) doc).result =
        doc.put slot old := congrArg Editing.result (hput _)
    rw [hback, put_of_node? hslot]

/-- A workflow whose only job stands under a tag. -/
def sampleJobs : Value :=
  .mapping [(.string "env", .null), (.string "build", .tagged "!job" (.mapping
    [(.string "runs-on", .string "ubuntu-20.04"), (.string "steps", .sequence [.null])]))]

/-- The machine of the job is written and put back; its steps stay, and no name is asked for where
there is none. -/
theorem update?_lens_sampleJobs :
    sampleJobs.lookup? ["build", "name"] = none ∧
    overKeys ["build", "name"] (fun _ => (none : Option Value)) sampleJobs = some sampleJobs ∧
    sampleJobs.lookup? ["build", "runs-on"] = some (.string "ubuntu-20.04") ∧
    ∃ after, (sampleJobs.update? ["build", "runs-on"] fun _ => .null) = some after ∧
      after.lookup? ["build", "runs-on"] = some .null ∧
      after.lookup? ["build", "steps"] = some (.sequence [.null]) ∧
      (after.update? ["build", "runs-on"] fun _ => .string "ubuntu-20.04") = some sampleJobs := by
  have hnone : sampleJobs.lookup? ["build", "name"] = none := rfl
  have hsame := (update?_lens sampleJobs ["build", "name"]).2.1 hnone fun _ => (none : Option Value)
  have hold : sampleJobs.lookup? ["build", "runs-on"] = some (.string "ubuntu-20.04") := rfl
  obtain ⟨slot, -, -, hwritten⟩ := (update?_lens sampleJobs ["build", "runs-on"]).2.2 _ hold
  obtain ⟨after, hafter, hfound, hothers, -, hback⟩ := hwritten .null
  refine ⟨hnone, hsame, hold, after, hafter, hfound, ?_, hback⟩
  exact hothers ["build", "steps"] (by decide) (by decide)

end Value

end WorkflowRecipes
