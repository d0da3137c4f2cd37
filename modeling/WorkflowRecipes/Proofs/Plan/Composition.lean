import WorkflowRecipes.Proofs.Amendment.NoticedChanges
import WorkflowRecipes.Proofs.Document.Reading
import WorkflowRecipes.Proofs.Plan.Repetition

/-!
# One plan and plans in turn

A plan for several recipes does what plans for each of them do in turn, each on the text that the
one before it leaves. A step without a new text leaves the documents exactly as they are, since
every change is noticed; a step with one is followed by reading that text again.

Results:
1. `FilePlan.docs_byOne_of_same`: a step that keeps the file has changed no document.
2. `FilePlan.inTurn_ends`: the documents, edits and findings of plans in turn.
3. `FilePlan.ofText_inTurn`: they are those of the one plan.
-/

namespace WorkflowRecipes

/-- Findings of recipes other than the one that reads the text itself. -/
def withoutRemarks (findings : List (Signed Finding)) : List (Signed Finding) :=
  findings.filter fun finding => finding.recipe ≠ "ref-version-mismatch"

/-- Documents that can be written, and are read back as they were. -/
def ReadBack (docs : List Value) : Prop :=
  ∃ text, Yaml.render docs = .ok text ∧ Yaml.documents? text = some docs

/-- Whenever a recipe has changed the documents, they are read back as they were. -/
def StagesReadBack (context : Context) : List Recipe → List Value → Prop
  | [], _ => True
  | recipe :: rest, docs =>
    let next := (Visited.byOne context recipe docs).docs
    (Value.sameItems next docs = false → ReadBack next) ∧ StagesReadBack context rest next

namespace Recipe

variable (recipe : Recipe) (context : Context) (text : String)

/-- What a recipe makes of a document does not depend on the text of the file. -/
theorem visit_doc_of_text (doc : Value) :
    (recipe.visit { context with text } doc).doc = (recipe.visit context doc).doc := by
  cases recipe with
  | amendment r => exact congrArg Editing.result (r.visit_of_text context text doc)
  | audit a => rfl

theorem visit_edits_of_text (doc : Value) :
    (recipe.visit { context with text } doc).edits = (recipe.visit context doc).edits := by
  cases recipe with
  | amendment r => exact congrArg Editing.edits (r.visit_of_text context text doc)
  | audit a => rfl

/-- Only one recipe finds something in the text itself. -/
theorem visit_findings_of_text {recipe : Recipe} (h : recipe.name ≠ "ref-version-mismatch")
    (doc : Value) :
    (recipe.visit { context with text } doc).findings = (recipe.visit context doc).findings := by
  cases recipe with
  | amendment r => rfl
  | audit a =>
    cases a with
    | commitRemark => exact absurd rfl h
    | _ => rfl

/-- What a recipe makes of a document is noticed. -/
theorem noticed_visit_doc (doc : Value) : Value.Noticed (recipe.visit context doc).doc doc := by
  cases recipe with
  | amendment r => exact r.noticed_visit context doc
  | audit a => exact .refl doc

end Recipe

namespace Visited

variable (context : Context) (text : String) (recipe : Recipe) (docs : List Value)

theorem docs_byOne_of_text :
    (byOne { context with text } recipe docs).docs = (byOne context recipe docs).docs := by
  simp only [byOne, List.map_map]
  exact List.map_congr_left fun doc _ => recipe.visit_doc_of_text context text doc

theorem edits_byOne_of_text :
    (byOne { context with text } recipe docs).edits = (byOne context recipe docs).edits := by
  simp only [byOne, List.flatMap_map]
  exact List.flatMap_congr fun doc _ => by rw [recipe.visit_edits_of_text context text doc]

/-- The findings of a recipe are signed by it. -/
theorem recipe_of_mem_byOne {finding : Signed Finding}
    (h : finding ∈ (byOne context recipe docs).findings) : finding.recipe = recipe.name := by
  obtain ⟨outcome, -, hfinding⟩ := List.mem_flatMap.mp h
  obtain ⟨note, -, rfl⟩ := List.mem_map.mp hfinding
  rfl

theorem findings_byOne_of_text :
    withoutRemarks (byOne { context with text } recipe docs).findings =
      withoutRemarks (byOne context recipe docs).findings := by
  by_cases h : recipe.name = "ref-version-mismatch"
  · have hnone : ∀ context, withoutRemarks (byOne context recipe docs).findings = [] := by
      intro context
      refine List.filter_eq_nil_iff.mpr fun finding hfinding => ?_
      simp [recipe_of_mem_byOne context recipe docs hfinding, h]
    rw [hnone, hnone]
  · refine congrArg withoutRemarks ?_
    simp only [byOne, List.flatMap_map]
    exact List.flatMap_congr fun doc _ => by rw [Recipe.visit_findings_of_text context text h doc]

variable {context text recipe docs}

/-- A step that leaves the documents the same leaves them exactly as they are. -/
theorem docs_byOne_of_same (hwf : Value.WellFormedItems docs)
    (h : Value.sameItems (byOne context recipe docs).docs docs = true) :
    (byOne context recipe docs).docs = docs := by
  have hnoticed : List.Forall₂ Value.Noticed (byOne context recipe docs).docs docs := by
    simp only [byOne, List.map_map]
    rw [List.forall₂_map_left_iff, List.forall₂_same]
    exact fun doc _ => recipe.noticed_visit_doc context doc
  have hsame : (Value.sequence (byOne context recipe docs).docs).same (.sequence docs) = true :=
    Value.same_sequence_iff.mpr ⟨docs, rfl, h⟩
  exact Value.sequence.inj (Value.noticed_sequence hnoticed hwf hsame)

/-- After all steps the documents are those from before, or are read back as they are. -/
theorem docs_byAll_cases (hwf : Value.WellFormedItems docs) {recipes : List Recipe}
    (h : StagesReadBack context recipes docs) :
    (byAll context recipes docs).docs = docs ∨ ReadBack (byAll context recipes docs).docs := by
  -- The documents of a stage are known to be well-formed only because they were read.
  induction recipes generalizing docs with
  | nil => exact .inl rfl
  | cons recipe rest ih =>
    obtain ⟨hnext, hrest⟩ := h
    cases hsame : Value.sameItems (byOne context recipe docs).docs docs with
    | true =>
      rw [docs_byOne_of_same hwf hsame] at hrest
      rw [byAll, docs_byOne_of_same hwf hsame]
      exact ih hwf hrest
    | false =>
      obtain ⟨text, -, hdocs⟩ := hnext hsame
      rcases ih (Yaml.wellFormed_of_documents? hdocs) hrest with heq | hback
      · refine .inr ?_
        rw [byAll]
        dsimp only
        rw [heq]
        exact hnext hsame
      · exact .inr hback

end Visited

namespace FilePlan

/-- The text of the file once a plan is carried out. -/
def textAfter (plan : FilePlan) : String := plan.after.getD plan.before

/-- The plans for recipes one by one, each for the text that the one before it leaves. -/
def inTurn (context : Context) : List Recipe → Except RenderFault (List FilePlan)
  | [] => .ok []
  | recipe :: rest => do
    let plan ← ofText context [recipe]
    let later ← inTurn { context with text := plan.textAfter } rest
    return plan :: later

/-- The text that plans in turn leave. -/
def lastText (text : String) (plans : List FilePlan) : String :=
  (plans.map textAfter).getLastD text

variable {context : Context} {recipes : List Recipe} {docs : List Value}

theorem inTurn_cons {recipe : Recipe} {plan : FilePlan} {plans : List FilePlan}
    (h : ofText context [recipe] = .ok plan)
    (hlater : inTurn { context with text := plan.textAfter } recipes = .ok plans) :
    inTurn context (recipe :: recipes) = .ok (plan :: plans) := by
  rw [inTurn, h]
  show (do
    let later ← inTurn { context with text := plan.textAfter } recipes
    return plan :: later) = _
  rw [hlater]
  rfl

theorem lastText_cons (text : String) (plan : FilePlan) (plans : List FilePlan) :
    lastText text (plan :: plans) = lastText plan.textAfter plans := by
  rw [lastText, List.map_cons, List.getLastD_cons, lastText]

/-- The plan for documents that can be written if they have changed. -/
theorem ofDocuments_ends (hread : Yaml.documents? context.text = some docs)
    (h : Value.sameItems (Visited.byAll context recipes docs).docs docs = false →
      ReadBack (Visited.byAll context recipes docs).docs) :
    ∃ plan, ofDocuments context recipes docs = .ok plan ∧
      plan.edits = (Visited.byAll context recipes docs).edits ∧
      plan.findings = (Visited.byAll context recipes docs).findings ∧
      Yaml.documents? plan.textAfter =
        if Value.sameItems (Visited.byAll context recipes docs).docs docs then some docs
        else some (Visited.byAll context recipes docs).docs := by
  unfold ofDocuments
  dsimp only
  split
  · exact ⟨_, rfl, rfl, rfl, hread⟩
  · next hchanged =>
    obtain ⟨text, hrender, hback⟩ := h (Bool.not_eq_true _ ▸ hchanged)
    rw [hrender]
    exact ⟨_, rfl, rfl, rfl, hback⟩

section Steps

variable {recipe : Recipe} {text : String}

/-- A recipe that is not meant for a file does nothing to it. -/
theorem ofText_of_not_meant (h : recipe.isMeantFor context.path = false) :
    ofText { context with text } [recipe] = .ok { path := context.path, before := text } := by
  unfold ofText
  simp only [List.filter_cons, h, Bool.false_eq_true, if_false, List.filter_nil, List.isEmpty_nil,
    if_true]

/-- The plan for one recipe that is meant for the file. -/
theorem ofText_of_meant (h : recipe.isMeantFor context.path = true)
    (hread : Yaml.documents? text = some docs)
    (hnext : Value.sameItems (Visited.byOne context recipe docs).docs docs = false →
      ReadBack (Visited.byOne context recipe docs).docs) :
    ∃ plan, ofText { context with text } [recipe] = .ok plan ∧
      Yaml.documents? plan.textAfter = some (Visited.byOne context recipe docs).docs ∧
      plan.edits = (Visited.byOne context recipe docs).edits ∧
      withoutRemarks plan.findings =
        withoutRemarks (Visited.byOne context recipe docs).findings := by
  have hmeant : ({ context with text } : Context).meant [recipe] = [recipe] :=
    @Context.meant_cons_of_meant { context with text } recipe h []
  have hdocs := Visited.docs_byOne_of_text context text recipe docs
  have hedits := Visited.edits_byOne_of_text context text recipe docs
  have hfindings := Visited.findings_byOne_of_text context text recipe docs
  have hone : (Visited.byAll { context with text } [recipe] docs).docs =
      (Visited.byOne context recipe docs).docs := hdocs
  rw [@ofText_of_documents { context with text } _ _ hread, hmeant]
  obtain ⟨plan, hplan, hplanEdits, hplanFindings, hafter⟩ :=
    @ofDocuments_ends { context with text } [recipe] docs hread (by rw [hone]; exact hnext)
  refine ⟨plan, hplan, ?_, ?_, ?_⟩
  · rw [hafter, hone]
    split
    · next hsame =>
      rw [Visited.docs_byOne_of_same (Yaml.wellFormed_of_documents? hread) hsame]
    · rfl
  · rw [hplanEdits, ← hedits]
    exact List.append_nil _
  · rw [hplanFindings, ← hfindings]
    exact congrArg withoutRemarks (List.append_nil _)

end Steps

theorem withoutRemarks_append (first later : List (Signed Finding)) :
    withoutRemarks (first ++ later) = withoutRemarks first ++ withoutRemarks later :=
  List.filter_append _ _

/-- Plans in turn end with the documents that all recipes leave, and tell the same. -/
theorem inTurn_ends {text : String} (hread : Yaml.documents? text = some docs)
    (h : StagesReadBack context (context.meant recipes) docs) :
    ∃ plans, inTurn { context with text } recipes = .ok plans ∧
      Yaml.documents? (lastText text plans) =
        some (Visited.byAll context (context.meant recipes) docs).docs ∧
      plans.flatMap (·.edits) = (Visited.byAll context (context.meant recipes) docs).edits ∧
      (plans.flatMap fun plan => withoutRemarks plan.findings) =
        withoutRemarks (Visited.byAll context (context.meant recipes) docs).findings := by
  -- Invariant: the text that is left so far is read as the documents of this stage.
  induction recipes generalizing text docs with
  | nil => exact ⟨[], rfl, hread, rfl, rfl⟩
  | cons recipe rest ih =>
    cases hmeant : recipe.isMeantFor context.path with
    | false =>
      rw [Context.meant_cons_of_not_meant hmeant] at h ⊢
      obtain ⟨plans, hplans, hdocs, hedits, hfindings⟩ := ih hread h
      refine ⟨{ path := context.path, before := text } :: plans, ?_, ?_, hedits, hfindings⟩
      · rw [inTurn_cons (ofText_of_not_meant hmeant) hplans]
      · rw [lastText_cons]
        exact hdocs
    | true =>
      rw [Context.meant_cons_of_meant hmeant] at h ⊢
      obtain ⟨plan, hplan, hafter, hplanEdits, hplanFindings⟩ := ofText_of_meant hmeant hread h.1
      obtain ⟨plans, hplans, hdocs, hedits, hfindings⟩ := ih hafter h.2
      refine ⟨plan :: plans, ?_, ?_, ?_, ?_⟩
      · rw [inTurn_cons hplan hplans]
      · rw [lastText_cons]
        exact hdocs
      · rw [List.flatMap_cons, hplanEdits, hedits]
        rfl
      · rw [List.flatMap_cons, hplanFindings, hfindings, ← withoutRemarks_append]
        rfl

/-- One plan for all recipes does what plans in turn do. If every list of documents that a recipe
has changed is read back as it was, then both plannings succeed. The plans in turn end with the very
documents that all recipes together leave, and the file of the one plan holds the same. The edits
agree, and so do the findings but those of the recipe that reads the text itself. -/
theorem ofText_inTurn (hread : Yaml.documents? context.text = some docs)
    (h : StagesReadBack context (context.meant recipes) docs) :
    ∃ whole plans together apart,
      ofText context recipes = .ok whole ∧ inTurn context recipes = .ok plans ∧
      Yaml.documents? whole.textAfter = some together ∧
      Yaml.documents? (lastText context.text plans) = some apart ∧
      apart = (Visited.byAll context (context.meant recipes) docs).docs ∧
      Value.sameItems apart together = true ∧
      whole.edits = plans.flatMap (·.edits) ∧
      withoutRemarks whole.findings = plans.flatMap fun plan => withoutRemarks plan.findings := by
  obtain ⟨plans, hplans, hdocs, hedits, hfindings⟩ := inTurn_ends hread h
  have hback : Value.sameItems (Visited.byAll context (context.meant recipes) docs).docs docs =
      false → ReadBack (Visited.byAll context (context.meant recipes) docs).docs := by
    intro hchanged
    rcases Visited.docs_byAll_cases (Yaml.wellFormed_of_documents? hread) h with heq | hback
    · rw [heq, Value.sameItems_refl] at hchanged
      cases hchanged
    · exact hback
  obtain ⟨whole, hwhole, hwholeEdits, hwholeFindings, hafter⟩ := ofDocuments_ends hread hback
  rw [← ofText_of_documents hread] at hwhole
  rw [← hedits] at hwholeEdits
  have hremarks : withoutRemarks whole.findings =
      plans.flatMap fun plan => withoutRemarks plan.findings := by
    rw [hwholeFindings, hfindings]
  split at hafter
  -- The whole may keep the file though single steps changed it to and fro.
  · next hsame =>
    exact ⟨whole, plans, docs, _, hwhole, hplans, hafter, hdocs, rfl, hsame, hwholeEdits, hremarks⟩
  · exact ⟨whole, plans, _, _, hwhole, hplans, hafter, hdocs, rfl, Value.sameItems_refl _,
      hwholeEdits, hremarks⟩

/-! ### Three recipes on a small workflow -/

/-- A step that checks a repository out. -/
def checkoutDocs (version : String) : List Value :=
  [.mapping [(.string "jobs", .mapping [(.string "build", .mapping [(.string "steps",
    .sequence [.mapping [(.string "uses", .string ("actions/checkout@" ++ version))]])])])]]

/-- How the step is written. -/
def checkoutText (version : String) : String :=
  "jobs:\n  build:\n    steps:\n    - uses: actions/checkout@" ++ version ++ "\n"

/-- The workflow that holds the step. -/
def checkoutContext : Context where
  path := ".github/workflows/ci.yml"
  text := checkoutText "v2"

/-- The recipe that changes the version. -/
def toVersion (version : String) : Recipe :=
  .amendment (.changeActionVersion ⟨"actions/checkout", version⟩)

theorem readBack_checkoutDocs {version : String} (h : version = "v3" ∨ version = "v4") :
    ReadBack (checkoutDocs version) := by
  obtain rfl | rfl := h
  · exact ⟨checkoutText "v3", by decide +kernel, by decide +kernel⟩
  · exact ⟨checkoutText "v4", by decide +kernel, by decide +kernel⟩

/-- The version is changed twice, and an audit in between finds what the first change left. -/
theorem ofText_inTurn_checkout :
    ∃ whole plans together apart,
      ofText checkoutContext [toVersion "v3", .audit .unpinnedAction, toVersion "v4"] = .ok whole ∧
      inTurn checkoutContext [toVersion "v3", .audit .unpinnedAction, toVersion "v4"] = .ok plans ∧
      Yaml.documents? whole.textAfter = some together ∧
      Yaml.documents? (lastText checkoutContext.text plans) = some apart ∧
      apart = checkoutDocs "v4" ∧ Value.sameItems apart together = true ∧
      whole.edits = plans.flatMap (·.edits) ∧
      withoutRemarks whole.findings = plans.flatMap fun plan => withoutRemarks plan.findings := by
  have hread : Yaml.documents? checkoutContext.text = some (checkoutDocs "v2") := by
    decide +kernel
  have hmeant : checkoutContext.meant [toVersion "v3", .audit .unpinnedAction, toVersion "v4"] =
      [toVersion "v3", .audit .unpinnedAction, toVersion "v4"] := by
    decide +kernel
  have hfirst : (Visited.byOne checkoutContext (toVersion "v3") (checkoutDocs "v2")).docs =
      checkoutDocs "v3" := by
    decide +kernel
  have haudit : (Visited.byOne checkoutContext (.audit .unpinnedAction) (checkoutDocs "v3")).docs =
      checkoutDocs "v3" := by
    decide +kernel
  have hlast : (Visited.byOne checkoutContext (toVersion "v4") (checkoutDocs "v3")).docs =
      checkoutDocs "v4" := by
    decide +kernel
  have hstages : StagesReadBack checkoutContext (checkoutContext.meant
      [toVersion "v3", .audit .unpinnedAction, toVersion "v4"]) (checkoutDocs "v2") := by
    rw [hmeant]
    simp only [StagesReadBack, hfirst, haudit, hlast]
    exact ⟨fun _ => readBack_checkoutDocs (.inl rfl), fun _ => readBack_checkoutDocs (.inl rfl),
      fun _ => readBack_checkoutDocs (.inr rfl), trivial⟩
  obtain ⟨whole, plans, together, apart, hwhole, hplans, htogether, hapart, hdocs, hrest⟩ :=
    ofText_inTurn hread hstages
  refine ⟨whole, plans, together, apart, hwhole, hplans, htogether, hapart, ?_, hrest⟩
  rw [hdocs, hmeant]
  simp only [Visited.byAll, hfirst, haudit, hlast]

end FilePlan

end WorkflowRecipes
