import Mathlib.Data.List.Basic
import WorkflowRecipes.Audit.Job

/-!
# Jobs on machines of one's own

A job asks for such a machine by the label itself, by a list that holds the label, or by an
expression that the job's matrix may turn into the label. Of a list only the first item is looked
at, so a label that stands further behind is missed.

Results:
1. `isSome_problem?_iff`: a job has a problem if and only if it asks for such a machine, and not by
   a label behind the first item of a list.
2. `findings_exact_iff`: the findings are one for each job that asks, in order, if and only if no
   label stands behind the first item of a list.
-/

namespace WorkflowRecipes.SelfHosted

variable {job : Entries} {doc : Value}

/-! ## What a job asks for -/

/-- Whether an item of a list is the label. -/
def IsLabel (item : Value) : Prop := item.text? = some label

/-- A dimension of the job's matrix, a mapping without a tag, is a list that holds the label. -/
def MatrixLists (job : Entries) : Prop :=
  ∃ strategy matrix dimension items, job.get? "strategy" = some strategy ∧
    strategy.get? "matrix" = some (.mapping matrix) ∧ dimension ∈ matrix ∧
    dimension.2.items? = some items ∧ ∃ item ∈ items, IsLabel item

/-- The job asks for a machine of one's own, or may come to ask for one. -/
inductive Asks (job : Entries) : Prop
  | directly : job.get? "runs-on" = some (.string label) → Asks job
  | inList {labels : List Value} {item : Value} :
      job.get? "runs-on" = some (.sequence labels) → item ∈ labels → IsLabel item → Asks job
  | throughMatrix {text : String} :
      job.get? "runs-on" = some (.string text) → holds text "$\x7b\x7b" = true →
      holds text "matrix." = true → MatrixLists job → Asks job

/-- The job asks by a list that holds the label, but not as its first item. -/
def AsksLate (job : Entries) : Prop :=
  ∃ first rest, job.get? "runs-on" = some (.sequence (first :: rest)) ∧ ¬ IsLabel first ∧
    ∃ item ∈ rest, IsLabel item

theorem AsksLate.asks (h : AsksLate job) : Asks job := by
  obtain ⟨first, rest, hruns, -, item, hitem, hlabel⟩ := h
  exact .inList hruns (List.mem_cons_of_mem first hitem) hlabel

/-- What is said about a job that asks. -/
def warning (job : Entries) : String :=
  match job.get? "runs-on" with
  | some (.string text) => if text = label then message else maybeMessage
  | _ => message

/-! ## What is found -/

theorem isInMatrix_iff : isInMatrix job = true ↔ MatrixLists job := by
  unfold isInMatrix MatrixLists
  constructor
  · intro h
    split at h
    · next matrix hmatrix =>
      obtain ⟨strategy, hstrategy, hget⟩ := Option.bind_eq_some_iff.mp hmatrix
      obtain ⟨dimension, hdimension, h⟩ := List.any_eq_true.mp h
      obtain ⟨item, hitem, hlabel⟩ := List.any_eq_true.mp h
      cases hitems : dimension.2.items? with
      | none => rw [Value.itemsOf, hitems] at hitem; cases hitem
      | some items =>
        rw [Value.itemsOf, hitems] at hitem
        exact ⟨strategy, matrix, dimension, items, hstrategy, hget, hdimension, hitems, item,
          hitem, beq_iff_eq.mp hlabel⟩
    · cases h
  · rintro ⟨strategy, matrix, dimension, items, hstrategy, hget, hdimension, hitems, item, hitem,
      hlabel⟩
    rw [hstrategy, Option.bind_some, hget]
    refine List.any_eq_true.mpr ⟨dimension, hdimension, List.any_eq_true.mpr ⟨item, ?_, ?_⟩⟩
    · rwa [Value.itemsOf, hitems]
    · exact beq_iff_eq.mpr hlabel

/-! ### Jobs by what stands under `runs-on` -/

theorem asks_iff_of_string {text : String} (h : job.get? "runs-on" = some (.string text)) :
    Asks job ↔ text = label ∨
      holds text "$\x7b\x7b" = true ∧ holds text "matrix." = true ∧ MatrixLists job := by
  constructor
  · rintro (hruns | ⟨hruns, -, -⟩ | ⟨hruns, hopen, hmatrix, hlists⟩)
    · exact .inl (by simpa [h] using hruns)
    · cases h.symm.trans hruns
    · cases h.symm.trans hruns
      exact .inr ⟨hopen, hmatrix, hlists⟩
  · rintro (rfl | ⟨hopen, hmatrix, hlists⟩)
    · exact .directly h
    · exact .throughMatrix h hopen hmatrix hlists

theorem asks_iff_of_sequence {labels : List Value}
    (h : job.get? "runs-on" = some (.sequence labels)) :
    Asks job ↔ ∃ item ∈ labels, IsLabel item := by
  constructor
  · rintro (hruns | ⟨hruns, hitem, hlabel⟩ | ⟨hruns, -, -, -⟩)
    · cases h.symm.trans hruns
    · cases h.symm.trans hruns
      exact ⟨_, hitem, hlabel⟩
    · cases h.symm.trans hruns
  · rintro ⟨item, hitem, hlabel⟩
    exact .inList h hitem hlabel

theorem asksLate_iff_of_sequence {labels : List Value}
    (h : job.get? "runs-on" = some (.sequence labels)) :
    AsksLate job ↔ (∃ item ∈ labels, IsLabel item) ∧ ∀ first ∈ labels.head?, ¬ IsLabel first := by
  simp only [AsksLate, h, Option.some.injEq, Value.sequence.injEq]
  cases labels with
  | nil => simp
  | cons head tail =>
    simp only [List.cons.injEq, List.head?_cons, Option.mem_def, Option.some.injEq, forall_eq',
      List.exists_mem_cons_iff]
    constructor
    · rintro ⟨first, rest, ⟨rfl, rfl⟩, hfirst, hrest⟩
      exact ⟨.inr hrest, hfirst⟩
    · rintro ⟨hlabel, hfirst⟩
      exact ⟨head, tail, ⟨rfl, rfl⟩, hfirst, hlabel.resolve_left hfirst⟩

/-- A job has a problem if and only if it asks for a machine of one's own, and not by a label behind
the first item of a list. -/
theorem isSome_problem?_iff : (problem? job).isSome = true ↔ Asks job ∧ ¬ AsksLate job := by
  unfold problem?
  split
  · next text hruns =>
    have hlate : ¬ AsksLate job := by
      rintro ⟨first, rest, hother, -⟩
      cases hruns.symm.trans hother
    rw [asks_iff_of_string hruns, and_iff_left hlate, ← isInMatrix_iff]
    by_cases hlabel : text = label <;> simp [hlabel, and_assoc]
  · next labels hruns =>
    rw [asks_iff_of_sequence hruns, asksLate_iff_of_sequence hruns]
    cases labels with
    | nil => simp
    | cons first rest => by_cases hfirst : first.text? = some label <;> simp [IsLabel, hfirst]
  · next hother hother' =>
    refine iff_of_false Bool.false_ne_true fun ⟨hasks, _⟩ => ?_
    obtain hruns | ⟨hruns, -, -⟩ | ⟨hruns, -, -, -⟩ := hasks
    · exact hother _ hruns
    · exact hother' _ hruns
    · exact hother _ hruns

theorem eq_warning_of_problem? {said : String} (h : problem? job = some said) :
    said = warning job := by
  unfold problem? at h
  unfold warning
  split at h
  · next text hruns =>
    simp only [hruns]
    split at h
    · next hlabel => rw [if_pos hlabel, Option.some.inj h]
    · next hlabel =>
      rw [if_neg hlabel]
      split at h
      · exact (Option.some.inj h).symm
      · cases h
  · next labels hruns =>
    simp only [hruns]
    split at h
    · exact (Option.some.inj h).symm
    · cases h
  · cases h

/-! ## The findings -/

/-- The finding for a job that asks. -/
def report (job : String × Location × Entries) : Finding :=
  ⟨Location.root.keys ["jobs", job.1, "runs-on"], warning job.2.2⟩

theorem location_of_mem_jobs {job : String × Location × Entries} (h : job ∈ doc.jobs) :
    job.2.1 = Location.root.keys ["jobs", job.1] := by
  obtain ⟨jobs, -, hjob⟩ := List.mem_flatMap.mp h
  obtain ⟨entry, -, hentry⟩ := List.mem_filterMap.mp hjob
  obtain ⟨entries, -, rfl⟩ := Option.map_eq_some_iff.mp hentry
  rfl

theorem found_of_mem_jobs {job : String × Location × Entries} (h : job ∈ doc.jobs) (found : Finding) :
    (problem? job.2.2).map (fun message => ⟨job.2.1.key "runs-on", message⟩) = some found ↔
      (Asks job.2.2 ∧ ¬ AsksLate job.2.2) ∧ report job = found := by
  rw [← isSome_problem?_iff, Option.map_eq_some_iff, location_of_mem_jobs h]
  constructor
  · rintro ⟨said, hsaid, rfl⟩
    rw [hsaid, eq_warning_of_problem? hsaid]
    exact ⟨rfl, rfl⟩
  · rintro ⟨hproblem, rfl⟩
    obtain ⟨said, hsaid⟩ := Option.isSome_iff_exists.mp hproblem
    exact ⟨said, hsaid, eq_warning_of_problem? hsaid ▸ rfl⟩

open Classical in
theorem findings_eq (doc : Value) :
    findings doc = (doc.jobs.filter fun job => Asks job.2.2 ∧ ¬ AsksLate job.2.2).map report := by
  rw [← List.filterMap_eq_map, List.filterMap_filter]
  refine List.filterMap_congr fun job hjob => Option.ext fun found => ?_
  rw [found_of_mem_jobs hjob]
  by_cases hasks : Asks job.2.2 ∧ ¬ AsksLate job.2.2 <;> simp [hasks]

open Classical in
/-- There is one finding for each job that asks but not late, in the order of the jobs, and no
other. The jobs that ask are all found if and only if none of them asks late. -/
theorem findings_exact_iff (doc : Value) :
    findings doc =
      (doc.jobs.filter fun job => Asks job.2.2 ∧ ¬ AsksLate job.2.2).map report ∧
    (findings doc = (doc.jobs.filter fun job => Asks job.2.2).map report ↔
      ∀ job ∈ doc.jobs, ¬ AsksLate job.2.2) := by
  refine ⟨findings_eq doc, ?_⟩
  rw [findings_eq]
  constructor
  · intro hall job hjob hlate
    -- Of the jobs that ask, those that do not ask late are as many.
    have hlength := congrArg List.length hall
    have hfilter : (doc.jobs.filter fun job => Asks job.2.2 ∧ ¬ AsksLate job.2.2) =
        (doc.jobs.filter fun job => Asks job.2.2).filter fun job => ¬ AsksLate job.2.2 := by
      rw [List.filter_filter]
      exact List.filter_congr fun job _ => by simp [Bool.and_comm]
    rw [List.length_map, List.length_map, hfilter, List.length_filter_eq_length_iff] at hlength
    have hasks : job ∈ doc.jobs.filter fun job => Asks job.2.2 :=
      List.mem_filter.mpr ⟨hjob, decide_eq_true hlate.asks⟩
    exact of_decide_eq_true (hlength job hasks) hlate
  · intro hnone
    refine congrArg (List.map report) (List.filter_congr fun job hjob => ?_)
    simp [hnone job hjob]

/-- A job that asks by its second label is not found. -/
theorem findings_label_behind :
    let job : Entries := [(.string "runs-on", .sequence [.string "linux", .string label])]
    let doc := Value.mapping [(.string "jobs", .mapping [(.string "build", .mapping job)])]
    doc.jobs.map (·.2.2) = [job] ∧ Asks job ∧ findings doc = [] := by
  refine ⟨rfl, .inList rfl (.tail _ (.head _)) rfl, by decide⟩

end WorkflowRecipes.SelfHosted
