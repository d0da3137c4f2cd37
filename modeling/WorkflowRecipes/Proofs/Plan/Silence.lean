import WorkflowRecipes.Proofs.Amendment.ToldChanges
import WorkflowRecipes.Proofs.Document.Reading
import WorkflowRecipes.Proofs.Plan.Repetition

/-!
# Silent changes

A change is silent if no edit tells of it. A recipe changes a document silently exactly if it notes
nothing where it drops the empty inputs of a call, and a file is modified silently only if it holds
such a call.

Results:
1. `Recipe.silent_iff`: the documents that a recipe changes silently.
2. `Visited.docs_byAll_of_silent`: recipes in turn that note nothing and meet no such call.
3. `FilePlan.silent_at_bareCall`: the two together, and the files that are modified silently.
-/

namespace WorkflowRecipes

namespace Recipe

/-- Whether a recipe drops an input and meets a call whose mapping of inputs is empty already. -/
def MeetsBareCall (doc : Value) : Recipe → Prop
  | .amendment r => r.MeetsBareCall doc
  | .audit _ => False

variable (recipe : Recipe) (context : Context)

theorem visit_doc_of_silent {doc : Value} (hwf : doc.WellFormed)
    (hbare : ¬recipe.MeetsBareCall doc) (hedits : (recipe.visit context doc).edits = []) :
    (recipe.visit context doc).doc = doc := by
  cases recipe with
  | amendment r => exact r.told_visit context hwf hbare hedits
  | audit _ => rfl

theorem visit_doc_ne_of_meetsBareCall {doc : Value} (h : recipe.MeetsBareCall doc) :
    (recipe.visit context doc).doc ≠ doc := by
  cases recipe with
  | amendment r =>
    obtain ⟨options, rfl, hbare⟩ := h
    exact options.changes_of_hasBareCall hbare none Location.root
  | audit _ => cases h

/-- Where a recipe notes nothing, it changes a document exactly if it meets a call with an empty
mapping of inputs. -/
theorem silent_iff {doc : Value} (hwf : doc.WellFormed)
    (hedits : (recipe.visit context doc).edits = []) :
    (recipe.visit context doc).doc ≠ doc ↔ recipe.MeetsBareCall doc := by
  constructor
  · intro hchanged
    by_contra hbare
    exact hchanged (recipe.visit_doc_of_silent context hwf hbare hedits)
  · exact recipe.visit_doc_ne_of_meetsBareCall context

end Recipe

namespace Visited

variable {context : Context} {docs : List Value}

theorem docs_byOne_of_silent {recipe : Recipe} (hwf : Value.WellFormedItems docs)
    (hbare : ∀ doc ∈ docs, ¬recipe.MeetsBareCall doc)
    (hedits : (byOne context recipe docs).edits = []) :
    (byOne context recipe docs).docs = docs := by
  have hnone : ∀ doc ∈ docs, (recipe.visit context doc).edits = [] := by
    simp only [byOne, List.flatMap_map, List.flatMap_eq_nil_iff] at hedits
    intro doc hdoc
    exact List.map_eq_nil_iff.mp (hedits doc hdoc)
  simp only [byOne, List.map_map]
  refine (List.map_congr_left fun doc hdoc => ?_).trans (List.map_id docs)
  exact recipe.visit_doc_of_silent context (Value.wellFormedItems_iff.mp hwf doc hdoc)
    (hbare doc hdoc) (hnone doc hdoc)

/-- Recipes in turn that note nothing leave the documents as they are, unless one of them meets a
call with an empty mapping of inputs in the documents as they were. -/
theorem docs_byAll_of_silent {recipes : List Recipe} (hwf : Value.WellFormedItems docs)
    (hbare : ∀ recipe ∈ recipes, ∀ doc ∈ docs, ¬recipe.MeetsBareCall doc)
    (hedits : (byAll context recipes docs).edits = []) :
    (byAll context recipes docs).docs = docs := by
  -- As long as nothing is noted, each recipe is given the very documents that the first one was.
  induction recipes with
  | nil => rfl
  | cons recipe rest ih =>
    obtain ⟨hfirst, hlater⟩ := List.append_eq_nil_iff.mp hedits
    have hdocs := docs_byOne_of_silent hwf (hbare recipe List.mem_cons_self) hfirst
    rw [hdocs] at hlater
    rw [byAll]
    dsimp only
    rw [hdocs]
    exact ih (fun other hother => hbare other (List.mem_cons_of_mem _ hother)) hlater

end Visited

namespace FilePlan

variable {context : Context} {recipes : List Recipe} {plan : FilePlan}

theorem exists_bareCall_of_silent (h : ofText context recipes = .ok plan)
    (hmodify : plan.action = .modify) (hedits : plan.edits = []) :
    ∃ docs, Yaml.documents? context.text = some docs ∧
      ∃ recipe ∈ context.meant recipes, ∃ doc ∈ docs, recipe.MeetsBareCall doc := by
  cases hread : Yaml.documents? context.text with
  | none =>
    rw [ofText_of_not_documents hread] at h
    cases h
    split at hmodify <;> cases hmodify
  | some docs =>
    refine ⟨docs, rfl, ?_⟩
    by_contra hbare
    push Not at hbare
    rw [ofText_of_documents hread] at h
    obtain ⟨hnoted, -, hchanged⟩ := ofDocuments_cases h
    have hsame := Visited.docs_byAll_of_silent (Yaml.wellFormed_of_documents? hread) hbare
      (hnoted ▸ hedits)
    rw [hsame, Value.sameItems_refl] at hchanged
    cases hchanged.mp hmodify

/-- No change is silent but one. Where a recipe notes nothing, it changes a document exactly if it
drops an input and meets a call of the workflow whose mapping of inputs is empty already; and a file
is modified with no edit only if a recipe that is meant for it meets such a call in its text. -/
theorem silent_at_bareCall (context : Context) (recipes : List Recipe) :
    (∀ recipe : Recipe, ∀ doc : Value, doc.WellFormed → (recipe.visit context doc).edits = [] →
      ((recipe.visit context doc).doc ≠ doc ↔ recipe.MeetsBareCall doc)) ∧
    ∀ plan, ofText context recipes = .ok plan → plan.action = .modify → plan.edits ≠ [] ∨
      ∃ docs, Yaml.documents? context.text = some docs ∧
        ∃ recipe ∈ context.meant recipes, ∃ doc ∈ docs, recipe.MeetsBareCall doc := by
  refine ⟨fun recipe doc hwf hedits => recipe.silent_iff context hwf hedits, ?_⟩
  intro plan hplan hmodify
  by_cases hedits : plan.edits = []
  · exact .inr (exists_bareCall_of_silent hplan hmodify hedits)
  · exact .inl hedits

/-! ### A call with an empty mapping of inputs -/

/-- The options for dropping the input `x` of a workflow. -/
def dropX : DropInput := ⟨"o/r/.github/workflows/w.yml", "v1", "x"⟩

/-- A workflow with a call of that workflow and no inputs. -/
def bareCallDoc : Value :=
  .mapping [(.string "jobs", .mapping [(.string "call", .mapping
    [(.string "uses", .string "o/r/.github/workflows/w.yml@v1"), (.string "with", .mapping [])])])]

/-- How it is written. -/
def bareCallContext : Context where
  path := ".github/workflows/ci.yml"
  text := "jobs:\n  call:\n    uses: o/r/.github/workflows/w.yml@v1\n    with: {}\n"

/-- The plan for it. -/
def bareCallPlan : FilePlan where
  path := ".github/workflows/ci.yml"
  action := .modify
  before := bareCallContext.text
  after := some "jobs:\n  call:\n    uses: o/r/.github/workflows/w.yml@v1\n"

theorem documents?_bareCallContext : Yaml.documents? bareCallContext.text = some [bareCallDoc] := by
  decide +kernel

theorem ofText_bareCallContext :
    ofText bareCallContext [.amendment (.dropInput dropX)] = .ok bareCallPlan := by
  decide +kernel

/-- The options are in order, and still the document changes and the file is modified with no
edit. -/
theorem modify_with_no_edit :
    dropX.problems = [] ∧ (dropX.visit bareCallDoc).result ≠ bareCallDoc ∧
      (dropX.visit bareCallDoc).edits = [] ∧
      ¬∀ plan, ofText bareCallContext [.amendment (.dropInput dropX)] = .ok plan →
        plan.action = .modify → plan.edits ≠ [] := by
  refine ⟨by decide, by decide, by decide, fun h => ?_⟩
  exact h bareCallPlan ofText_bareCallContext rfl rfl

/-- That call is what the recipe meets, both in the document and in the text. -/
theorem silent_at_bareCallContext :
    Recipe.MeetsBareCall bareCallDoc (.amendment (.dropInput dropX)) ∧
      ∃ docs, Yaml.documents? bareCallContext.text = some docs ∧
        ∃ recipe ∈ bareCallContext.meant [.amendment (.dropInput dropX)],
          ∃ doc ∈ docs, recipe.MeetsBareCall doc := by
  obtain ⟨hvisit, hplan⟩ := silent_at_bareCall bareCallContext [.amendment (.dropInput dropX)]
  have hwf := (Yaml.wellFormed_of_documents? documents?_bareCallContext).1
  constructor
  · have hsilent := hvisit (.amendment (.dropInput dropX)) bareCallDoc hwf (by decide)
    exact hsilent.mp (by decide)
  · rcases hplan bareCallPlan ofText_bareCallContext rfl with hedits | hdocs
    · exact absurd rfl hedits
    · exact hdocs

end FilePlan

end WorkflowRecipes
