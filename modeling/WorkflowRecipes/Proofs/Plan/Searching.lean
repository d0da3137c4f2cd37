import WorkflowRecipes.Proofs.Document.Looking
import WorkflowRecipes.Proofs.Plan.Composition

/-!
# Plans for audits

Audits only report. A plan for any list of them keeps the documents as they are, and its findings
are those of the plans for each audit alone, one after the other. Some audits go over the jobs or
the steps by the walks that amendments use; these walks leave the document as it is, too.

Results:
1. `Audit.looks_overJobs`, `Audit.looks_overSteps`: audits by the walks of amendments.
2. `FilePlan.ofText_audits`: the plan for a list of audits.
3. `FilePlan.ofText_searching`: it is made of the plans for the single ones.
-/

namespace WorkflowRecipes

namespace Audit

/-- The audits that go over the jobs. -/
def ofJobs : List Audit := [.missingTimeout, .selfHosted, .anonymousJob]

/-- The audits that go over the steps. -/
def ofSteps : List Audit := [.unpinnedAction, .templateInjection, .artifact, .trustedPublishing]

variable (context : Context)

/-- An audit that looks at each job by itself finds the same by the walk that changes jobs, and
leaves the document as it is. -/
theorem looks_overJobs {audit : Audit} (h : audit ∈ ofJobs) :
    ∃ look, ∀ doc, Looks (Value.overJobs (noting look) doc) doc (audit.findings context doc) := by
  simp only [ofJobs, List.mem_cons, List.not_mem_nil, or_false] at h
  rcases h with rfl | rfl | rfl
  · exact Value.exists_looks_overJobs _ fun _ _ _ => rfl
  · simp only [findings, SelfHosted.findings, List.filterMap_eq_flatMap_toList]
    exact Value.exists_looks_overJobs _ fun _ _ _ => rfl
  · exact Value.exists_looks_overJobs _ fun _ _ _ => rfl

/-- An audit that looks at each step by itself, and at whether artifacts are uploaded, finds the
same by the walk that changes steps, and leaves the document as it is. -/
theorem looks_overSteps {audit : Audit} (h : audit ∈ ofSteps) :
    ∃ look : Bool → Location → Entries → List Finding, ∀ doc,
      Looks (Value.overSteps (noting (look (Artifact.uploads doc))) doc) doc
        (audit.findings context doc) := by
  simp only [ofSteps, List.mem_cons, List.not_mem_nil, or_false] at h
  rcases h with rfl | rfl | rfl | rfl
  · simp only [findings, Unpinned.findings, List.filterMap_eq_flatMap_toList]
    exact ⟨fun _ location step => ((step.uses?.bind Unpinned.reason?).map fun reason =>
      ⟨location.key "uses", reason⟩).toList, Value.looks_overSteps _⟩
  · exact ⟨fun _ => Taint.inStep, Value.looks_overSteps _⟩
  · simp only [findings, Artifact.findings, List.filterMap_eq_flatMap_toList]
    exact ⟨fun uploaded location step => ((Artifact.problem? uploaded step).map fun message =>
      ⟨location.key "uses", message⟩).toList, fun doc => Value.looks_overSteps _ doc⟩
  · exact ⟨fun _ => TrustedPublishing.inStep, Value.looks_overSteps _⟩

/-- The findings of an audit in some documents. -/
def findingsIn (docs : List Value) (audit : Audit) : List (Signed Finding) :=
  docs.flatMap fun doc => signed audit.name (audit.findings context doc)

end Audit

namespace Visited

/-- Audits leave the documents as they are, and each reports what it finds in all of them. -/
theorem byOne_audit (context : Context) (audit : Audit) (docs : List Value) :
    byOne context (.audit audit) docs =
      { docs, findings := audit.findingsIn context docs } := by
  simp only [byOne, List.map_map, List.flatMap_map]
  rw [Visited.mk.injEq]
  refine ⟨List.map_id docs, ?_, rfl⟩
  exact List.flatMap_eq_nil_iff.mpr fun _ _ => rfl

theorem byAll_audits (context : Context) (audits : List Audit) (docs : List Value) :
    byAll context (audits.map .audit) docs =
      { docs, findings := audits.flatMap (Audit.findingsIn context docs) } := by
  induction audits with
  | nil => rfl
  | cons audit rest ih =>
    rw [List.map_cons, byAll, byOne_audit]
    dsimp only
    rw [ih]
    rfl

end Visited

namespace FilePlan

variable (context : Context)

/-- The findings of the plan for one audit. -/
def found (audit : Audit) : List (Signed Finding) :=
  if Path.isWorkflow context.path then
    audit.findingsIn context ((Yaml.documents? context.text).getD [])
  else []

/-- Audits are all meant for the same files. -/
theorem meant_audits (audits : List Audit) :
    context.meant (audits.map .audit) =
      (if Path.isWorkflow context.path then audits else []).map .audit := by
  unfold Context.meant
  rw [List.filter_map]
  refine congrArg (List.map Recipe.audit) ?_
  split
  · next hpath => exact List.filter_eq_self.mpr fun _ _ => hpath
  · next hpath => exact List.filter_eq_nil_iff.mpr fun _ _ => hpath

theorem ofDocuments_audits (audits : List Audit) (docs : List Value) :
    ofDocuments context (audits.map .audit) docs = .ok
      { path := context.path, before := context.text
        findings := audits.flatMap (Audit.findingsIn context docs) } := by
  unfold ofDocuments
  rw [Visited.byAll_audits]
  dsimp only
  rw [if_pos (Value.sameItems_refl docs)]

/-- The plan for audits changes nothing, and its findings are those of each audit in turn. -/
theorem ofText_audits (audits : List Audit) :
    ∃ plan, ofText context (audits.map .audit) = .ok plan ∧
      plan.action ≠ .modify ∧ plan.edits = [] ∧ plan.after = none ∧
        plan.findings = audits.flatMap (found context) := by
  unfold found
  cases hread : Yaml.documents? context.text with
  | none =>
    refine ⟨_, ofText_of_not_documents hread, ?_, rfl, rfl, ?_⟩
    · dsimp only
      split <;> decide
    · refine (List.flatMap_eq_nil_iff.mpr fun audit _ => ?_).symm
      exact ite_self _
  | some docs =>
    rw [ofText_of_documents hread, meant_audits, ofDocuments_audits]
    refine ⟨_, rfl, nofun, rfl, rfl, ?_⟩
    dsimp only
    cases Path.isWorkflow context.path with
    | false => exact (List.flatMap_eq_nil_iff.mpr fun _ _ => rfl).symm
    | true => rfl

theorem ofText_audit (audit : Audit) :
    ∃ plan, ofText context [.audit audit] = .ok plan ∧ plan.findings = found context audit := by
  obtain ⟨plan, hplan, -, -, -, hfindings⟩ := ofText_audits context [audit]
  exact ⟨plan, hplan, hfindings.trans (List.flatMap_singleton _ _)⟩

/-- A plan for audits is made of the plans for each audit alone. It changes nothing: the file is not
modified, no edit is noted, there is no new text, and the documents are as they were. Its findings
are those of the single plans, in order, so that another order of the audits gives the same blocks
of findings in another order. The audits that look at jobs or steps one by one find the same by the
walks that change jobs and steps, and these leave the document as it is. -/
theorem ofText_searching (audits : List Audit) :
    (∃ plan alone, ofText context (audits.map .audit) = .ok plan ∧
      audits.mapM (fun audit => ofText context [.audit audit]) = .ok alone ∧
      plan.action ≠ .modify ∧ plan.edits = [] ∧ plan.after = none ∧
      plan.findings = alone.flatMap (·.findings) ∧
      (∀ docs, (Visited.byAll context (context.meant (audits.map .audit)) docs).docs = docs) ∧
      ∀ other : List Audit, other.Perm audits → ∃ plan', ∃ alone' : List FilePlan,
        ofText context (other.map .audit) = .ok plan' ∧ alone'.Perm alone ∧
          plan'.findings = alone'.flatMap (·.findings)) ∧
    (∀ audit ∈ Audit.ofJobs, ∃ look, ∀ doc,
      Looks (Value.overJobs (noting look) doc) doc (audit.findings context doc)) ∧
    ∀ audit ∈ Audit.ofSteps, ∃ look : Bool → Location → Entries → List Finding, ∀ doc,
      Looks (Value.overSteps (noting (look (Artifact.uploads doc))) doc) doc
        (audit.findings context doc) := by
  refine ⟨?_, fun _ => Audit.looks_overJobs context, fun _ => Audit.looks_overSteps context⟩
  choose single hsingle hfound using ofText_audit context
  have halone : ∀ audits : List Audit, (audits.map single).flatMap (·.findings) =
      audits.flatMap (found context) := by
    intro audits
    rw [List.flatMap_map]
    exact List.flatMap_congr fun audit _ => hfound audit
  obtain ⟨plan, hplan, haction, hedits, hafter, hfindings⟩ := ofText_audits context audits
  refine ⟨plan, audits.map single, hplan, ?_, haction, hedits, hafter, ?_, ?_, ?_⟩
  · simp only [hsingle]
    exact List.mapM_pure
  · rw [halone, hfindings]
  · intro docs
    rw [meant_audits, Visited.byAll_audits]
  · intro other hperm
    obtain ⟨plan', hplan', -, -, -, hfindings'⟩ := ofText_audits context other
    exact ⟨plan', other.map single, hplan', hperm.map single, by rw [halone, hfindings']⟩

/-- Two audits find one thing each in the small workflow, in either order. -/
theorem ofText_searching_checkout :
    (ofText checkoutContext ([.missingTimeout, .anonymousJob].map .audit)).toOption.map
        (fun plan => plan.findings.map (·.recipe)) =
      some ["find-missing-timeout", "anonymous-jobs"] ∧
    ∃ plan plan', ∃ alone alone' : List FilePlan,
      ofText checkoutContext ([.missingTimeout, .anonymousJob].map .audit) = .ok plan ∧
      ofText checkoutContext ([.anonymousJob, .missingTimeout].map .audit) = .ok plan' ∧
      plan.action ≠ .modify ∧ alone'.Perm alone ∧
      plan.findings = alone.flatMap (·.findings) ∧
      plan'.findings = alone'.flatMap (·.findings) := by
  refine ⟨by decide +kernel, ?_⟩
  obtain ⟨⟨plan, alone, hplan, -, haction, -, -, hfindings, -, horder⟩, -⟩ :=
    ofText_searching checkoutContext [.missingTimeout, .anonymousJob]
  obtain ⟨plan', alone', hplan', hperm, hfindings'⟩ :=
    horder [.anonymousJob, .missingTimeout] (List.Perm.swap _ _ _)
  exact ⟨plan, plan', alone, alone', hplan, hplan', haction, hperm, hfindings, hfindings'⟩

end FilePlan

end WorkflowRecipes
