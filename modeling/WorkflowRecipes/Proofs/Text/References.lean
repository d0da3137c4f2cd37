import WorkflowRecipes.ActionRef
import WorkflowRecipes.Proofs.Text.Occurrences
import WorkflowRecipes.Proofs.Text.Pieces

/-!
# References by name

A step names an action if the text under `uses` is the name of the action, alone or with a ref
behind it. No name has a sign `@`, so the first one in the text starts the ref.

Results:
1. `name_ofText_eq_iff`: the texts that refer to an action.
2. `usesAction_iff`, `NamesAction.unique`: the steps that name an action.
-/

namespace WorkflowRecipes

theorem Text.splitOnce_of_not_mem {sep : Char} {s : List Char} (h : sep ∉ s) :
    splitOnce sep s = none :=
  splitOnce_append_of_not_mem h []

/-- A reference is a name and what stands behind the first sign `@`. -/
theorem ActionRef.ofText_append {name : String} (h : '@' ∉ name.toList) (version : String) :
    ofText (name ++ "@" ++ version) = ⟨name, some version⟩ := by
  have hlist : (name ++ "@" ++ version).toList = name.toList ++ '@' :: version.toList := by simp
  rw [ofText, cutAt?, hlist, Text.splitOnce_append h]
  simp

/-- The name in a reference is what stands before its ref. -/
theorem ActionRef.name_ofText {name : String} (h : '@' ∉ name.toList) (version : String) :
    (ofText (name ++ "@" ++ version)).name = name := by
  rw [ofText_append h]

/-- A text refers to an action if it is its name, with a ref or without one. -/
theorem ActionRef.name_ofText_eq_iff {name text : String} (h : '@' ∉ name.toList) :
    (ofText text).name = name ↔ text = name ∨ ∃ ref, text = name ++ "@" ++ ref := by
  constructor
  · rintro rfl
    rw [ofText, cutAt?]
    cases hcut : Text.splitOnce '@' text.toList with
    | none => exact .inl rfl
    | some parts =>
      obtain ⟨before, after⟩ := parts
      refine .inr ⟨String.ofList after, String.toList_inj.mp ?_⟩
      simp [Text.eq_of_splitOnce hcut]
  · rintro (rfl | ⟨ref, rfl⟩)
    · rw [ofText, cutAt?, Text.splitOnce_of_not_mem h]
      rfl
    · exact name_ofText h ref

namespace Entries

/-- A step names an action, with a ref or without one. -/
def NamesAction (action : String) (step : Entries) : Prop :=
  ∃ uses, step.uses? = some uses ∧ (uses = action ∨ ∃ ref, uses = action ++ "@" ++ ref)

/-- Whether a step names an action can be read off the text under `uses`. -/
theorem namesAction_iff {action : String} {step : Entries} : step.NamesAction action ↔
    (step.uses?.any fun uses => uses == action || (dropPrefix? uses (action ++ "@")).isSome) =
      true := by
  rw [Option.any_eq_true]
  refine exists_congr fun uses => and_congr_right fun _ => ?_
  simp only [Bool.or_eq_true, beq_iff_eq, Option.isSome_iff_exists, dropPrefix?_iff]

instance (action : String) (step : Entries) : Decidable (step.NamesAction action) :=
  decidable_of_iff _ namesAction_iff.symm

theorem usesAction_iff {action : String} (h : '@' ∉ action.toList) {step : Entries} :
    step.usesAction action = true ↔ step.NamesAction action := by
  rw [usesAction, action?, Option.any_map, Option.any_eq_true]
  refine exists_congr fun uses => and_congr_right fun _ => ?_
  rw [← ActionRef.name_ofText_eq_iff h]
  exact beq_iff_eq

/-- A step names one action. -/
theorem NamesAction.unique {action other : String} {step : Entries} (h : '@' ∉ action.toList)
    (hother : '@' ∉ other.toList) (hnames : step.NamesAction action)
    (hnames' : step.NamesAction other) : action = other := by
  obtain ⟨uses, huses, hname⟩ := hnames
  obtain ⟨uses', huses', hname'⟩ := hnames'
  obtain rfl := Option.some.inj (huses.symm.trans huses')
  rw [← ActionRef.name_ofText_eq_iff h] at hname
  rw [← ActionRef.name_ofText_eq_iff hother] at hname'
  exact hname.symm.trans hname'

end Entries

end WorkflowRecipes
