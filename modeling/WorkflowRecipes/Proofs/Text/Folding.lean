import WorkflowRecipes.Text.Case

/-!
# The small letters that characters are matched by

Characters below U+0080 are in no table of their own: they are matched by their small letters
(`folded_of_ascii`). The tables are long texts, so they are taken as parameters where a function
that looks into them is opened, and read once.
-/

namespace WorkflowRecipes.Text

namespace Run

theorem table_ofList (chars : List Char) :
    table (String.ofList chars) = (words chars).map ofWord := by
  rw [table, String.toList_ofList]

end Run

/-- `folded` with the table as a parameter. -/
def foldedBy (runs : List Run) (c : Char) : Char :=
  match runs.find? fun run => run.has c.toNat with
  | some run => Char.ofNat ((c.toNat : Int) + run.shift).toNat
  | none => toSmall c

theorem folded_eq : folded = foldedBy foldedElsewhere := by
  delta folded foldedBy
  -- Otherwise the table is read to see that both sides are the same.
  generalize foldedElsewhere = runs
  rfl

theorem first_of_mem_foldedElsewhere : ∀ run ∈ foldedElsewhere, 0x80 ≤ run.first := by
  rw [foldedElsewhere, Run.table_ofList]
  decide +kernel

theorem foldedBy_of_ascii {runs : List Run} (hruns : ∀ run ∈ runs, 0x80 ≤ run.first) {c : Char}
    (h : c.toNat < 0x80) : foldedBy runs c = c.toLower := by
  have hnone : (runs.find? fun run => run.has c.toNat) = none := by
    rw [List.find?_eq_none]
    intro run hrun hhas
    have hfirst := hruns run hrun
    simp only [Run.has, Bool.and_eq_true, decide_eq_true_eq] at hhas
    omega
  rw [foldedBy, hnone, toSmall, if_pos h]

/-- A character below U+0080 is matched by its small letter. -/
theorem folded_of_ascii {c : Char} (h : c.toNat < 0x80) : folded c = c.toLower := by
  rw [folded_eq, foldedBy_of_ascii first_of_mem_foldedElsewhere h]

end WorkflowRecipes.Text
