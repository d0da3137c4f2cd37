import Mathlib.Data.List.Basic
import WorkflowRecipes.Amendment.Basic
import WorkflowRecipes.Audit.Reference
import WorkflowRecipes.Proofs.Amendment.SettledSteps
import WorkflowRecipes.Proofs.Document.Stepwise

/-!
# Distributions behind commits

The number of the version of an action is read off the digits at the start of its ref. A commit is
a number of base sixteen and may start with such digits too; then they are taken for a version. So
of the steps that are pinned to commits of the action, some have their distributions replaced and
others not.

Results:
1. `ActionRef.major?_eq_none_iff`: the commits without a number of a version.
2. `Distribution.replaceIn_repin`: what is made of a step under another commit.
3. `Distribution.visit_repinned_iff`: when the distributions behind commits are treated alike.
-/

namespace WorkflowRecipes

/-! ## Commits -/

namespace ActionRef

variable {action : ActionRef} {ref : String}

/-- Whether a ref is a full commit. -/
def isCommit (ref : String) : Bool := isRunOf Unpinned.commitLength isHex ref

/-- The number in the digits that a ref starts with. -/
def leadingNumber (ref : String) : Nat := Text.valueOfDigits (ref.toList.takeWhile Char.isDigit)

/-- A ref starts with a digit. -/
def StartsWithDigit (ref : String) : Prop := ∃ c ∈ ref.toList.head?, c.isDigit = true

theorem takeWhile_isDigit_ne_nil_iff :
    ref.toList.takeWhile Char.isDigit ≠ [] ↔ StartsWithDigit ref := by
  rw [StartsWithDigit]
  cases ref.toList with
  | nil => simp
  | cons c rest => simp [List.takeWhile_cons]

theorem all_isHex_of_isCommit (h : isCommit ref = true) : ref.toList.all isHex = true := by
  rw [isCommit, isRunOf, Bool.and_eq_true] at h
  exact h.2

/-- The number of the version of a commit is what it starts with, if that is small enough. -/
theorem major?_eq_some_iff (hversion : action.version = some ref) (h : isCommit ref = true)
    {number : Nat} : action.major? = some number ↔
      StartsWithDigit ref ∧ leadingNumber ref = number ∧ number < UInt32.size := by
  have hhex := all_isHex_of_isCommit h
  have hmajor : action.major? =
      Text.naturalBelow? UInt32.size (ref.toList.takeWhile Char.isDigit) := by
    rw [major?, hversion, Option.bind_some]
    dsimp only
    split
    · next rest heq =>
      -- No digit of base sixteen is the letter that can stand before a version.
      rw [heq, List.all_cons] at hhex
      cases hhex
    · rfl
  rw [hmajor, Text.naturalBelow?, Text.natural?, List.all_takeWhile, Bool.and_true,
    ← takeWhile_isDigit_ne_nil_iff, leadingNumber]
  cases hlead : ref.toList.takeWhile Char.isDigit with
  | nil => simp
  | cons c rest => simp [Option.filter_eq_some_iff]

/-- A commit has no number of a version if and only if it starts with a letter, or with more digits
than such a number can have. -/
theorem major?_eq_none_iff (hversion : action.version = some ref) (h : isCommit ref = true) :
    action.major? = none ↔ ¬ StartsWithDigit ref ∨ UInt32.size ≤ leadingNumber ref := by
  rw [Option.eq_none_iff_forall_ne_some]
  constructor
  · intro hnone
    by_contra hnot
    rw [not_or, not_not, not_le] at hnot
    exact hnone _ ((major?_eq_some_iff hversion h).mpr ⟨hnot.1, rfl, hnot.2⟩)
  · rintro hlarge number hnumber
    obtain ⟨hdigit, rfl, hsmall⟩ := (major?_eq_some_iff hversion h).mp hnumber
    exact hlarge.elim (· hdigit) (not_le.mpr hsmall)

end ActionRef

/-! ## Changes of one step -/

namespace Entries

variable {f : Value → Editing Value} {name other : String}

/-- A change under one key and a value under another. -/
theorem result_overKey_set (h : name ≠ other) (entries : Entries) (value : Value) :
    (overKey name f (entries.set other value)).result =
      (overKey name f entries).result.set other value := by
  induction entries with
  | nil =>
    have hkey := Value.isKey_eq_false_of_isKey (Value.isKey_string other) h.symm
    exact overKey_cons_of_not_isKey hkey
  | cons entry rest ih =>
    obtain ⟨key, old⟩ := entry
    cases hother : key.isKey other with
    | true =>
      have hname := Value.isKey_eq_false_of_isKey hother h.symm
      rw [set_cons_of_isKey hother, overKey_cons_of_not_isKey hname,
        overKey_cons_of_not_isKey hname, set_cons_of_isKey hother]
    | false =>
      rw [set_cons_of_not_isKey hother]
      cases hname : key.isKey name with
      | true => rw [overKey_cons_of_isKey hname, overKey_cons_of_isKey hname,
          set_cons_of_not_isKey hother]
      | false => rw [overKey_cons_of_not_isKey hname, overKey_cons_of_not_isKey hname,
          set_cons_of_not_isKey hother, ih]

end Entries

namespace Distribution

open ActionRef

variable {accepts : String → Bool} {new commit : String} {f : String → String} {step : Entries}

/-- The commit of the action for Java that a step is pinned to. -/
def commit? (step : Entries) : Option String :=
  (step.action?.filter (·.isNamed setupJava)).bind fun action => action.version.filter isCommit

/-- A step with another commit in the place of the one that it is pinned to. -/
def repin (f : String → String) (step : Entries) : Entries :=
  match commit? step with
  | some commit => step.set "uses" (.string (setupJava ++ "@" ++ f commit))
  | none => step

/-- Commits stand for commits. -/
def KeepsCommits (f : String → String) : Prop :=
  ∀ commit, isCommit commit = true → isCommit (f commit) = true

/-- The number that a commit starts with is taken for a version that knows distributions. -/
def LooksKnown (commit : String) : Prop :=
  firstMajor ≤ leadingNumber commit ∧ leadingNumber commit < UInt32.size

/-- A step has a distribution that is to be replaced. -/
def Replaceable (accepts : String → Bool) (new : String) (step : Entries) : Prop :=
  ∃ inputs slot old, step.get? "with" = some inputs ∧ inputs.get? "distribution" = some slot ∧
    slot.scalarText? = some old ∧ old ≠ new ∧ accepts old = true

theorem commit?_eq_some_iff : commit? step = some commit ↔
    step.action? = some ⟨setupJava, some commit⟩ ∧ isCommit commit = true := by
  rw [commit?, Option.bind_eq_some_iff]
  constructor
  · rintro ⟨action, haction, hversion⟩
    obtain ⟨haction, hnamed⟩ := Option.filter_eq_some_iff.mp haction
    obtain ⟨hversion, hcommit⟩ := Option.filter_eq_some_iff.mp hversion
    obtain ⟨name, version⟩ := action
    obtain rfl : name = setupJava := beq_iff_eq.mp hnamed
    cases hversion
    exact ⟨haction, hcommit⟩
  · rintro ⟨haction, hcommit⟩
    refine ⟨_, Option.filter_eq_some_iff.mpr ⟨haction, beq_self_eq_true setupJava⟩, ?_⟩
    exact Option.filter_eq_some_iff.mpr ⟨rfl, hcommit⟩

theorem isKnown_iff_looksKnown (h : commit? step = some commit) :
    isKnown step = true ↔ LooksKnown commit := by
  obtain ⟨haction, hcommit⟩ := commit?_eq_some_iff.mp h
  have hversion : (⟨setupJava, some commit⟩ : ActionRef).version = some commit := rfl
  rw [isKnown, haction, Option.any_some, isNamed, beq_self_eq_true, Bool.true_and,
    Option.any_eq_true]
  simp only [major?_eq_some_iff hversion hcommit, decide_eq_true_eq]
  constructor
  · rintro ⟨_, ⟨-, rfl, hsmall⟩, hknown⟩
    exact ⟨hknown, hsmall⟩
  · rintro ⟨hknown, hsmall⟩
    refine ⟨_, ⟨?_, rfl, hsmall⟩, hknown⟩
    -- Without digits the number is zero, which is no version that knows distributions.
    rw [← takeWhile_isDigit_ne_nil_iff]
    intro hnone
    rw [leadingNumber, hnone] at hknown
    exact absurd hknown (by decide)

theorem commit?_overKey (g : Value → Editing Value) (step : Entries) :
    commit? (step.overKey "with" g).result = commit? step := by
  rw [commit?, Entries.action?_overKey_of_ne (by decide), commit?]

theorem commit?_repin (h : commit? step = some commit) (hf : isCommit (f commit) = true) :
    commit? (repin f step) = some (f commit) := by
  refine commit?_eq_some_iff.mpr ⟨?_, hf⟩
  rw [repin, h, Entries.action?, Entries.uses?, Entries.text?_set_self, Option.map_some,
    ofText_append (by decide)]

/-! ### Distributions of one step -/

/-- A step with its distribution replaced, whatever version of the action it uses. -/
def replaceAnyway (accepts : String → Bool) (new : String) (location : Location)
    (step : Entries) : Editing Entries :=
  step.overKey "with" <| Value.overKey "distribution" fun slot =>
    match slot.scalarText? with
    | some old =>
      if old ≠ new ∧ accepts old then
        .one (location.keys ["with", "distribution"]) (arrow old new) (slot.replacement new)
      else pure slot
    | none => pure slot

theorem replaceIn_eq (accepts : String → Bool) (new : String) (location : Location)
    (step : Entries) : replaceIn accepts new location step =
      if isKnown step then replaceAnyway accepts new location step else pure step := rfl

theorem replaceAnyway_of_not_replaceable (h : ¬ Replaceable accepts new step)
    (location : Location) : replaceAnyway accepts new location step = pure step := by
  refine Entries.overKey_eq_pure fun inputs hinputs => ?_
  refine Value.overEntries_eq_pure inputs fun entries hentries => ?_
  refine Entries.overKey_eq_pure fun slot hslot => ?_
  have hget : inputs.get? "distribution" = some slot := by
    rw [Value.get?, hentries, Option.bind_some, hslot]
  split
  · next old hold =>
    rw [if_neg]
    rintro ⟨hne, haccepts⟩
    exact h ⟨inputs, slot, old, hinputs, hget, hold, hne, haccepts⟩
  · rfl

theorem edits_replaceAnyway_ne_nil (h : Replaceable accepts new step) (location : Location) :
    (replaceAnyway accepts new location step).edits ≠ [] := by
  obtain ⟨inputs, slot, old, hinputs, hslot, hold, hne, haccepts⟩ := h
  rw [replaceAnyway, Entries.edits_overKey, hinputs, Option.elim_some, Value.edits_overKey, hslot,
    Option.elim_some, hold]
  dsimp only
  rw [if_pos ⟨hne, haccepts⟩]
  exact List.cons_ne_nil _ _

theorem replaceAnyway_set_uses (location : Location) (value : Value) :
    replaceAnyway accepts new location (step.set "uses" value) =
      ⟨(replaceAnyway accepts new location step).result.set "uses" value,
        (replaceAnyway accepts new location step).edits⟩ := by
  have hedits : (replaceAnyway accepts new location (step.set "uses" value)).edits =
      (replaceAnyway accepts new location step).edits := by
    rw [replaceAnyway, Entries.edits_overKey, Entries.get?_set_of_ne (by decide), replaceAnyway,
      Entries.edits_overKey]
  have hresult : (replaceAnyway accepts new location (step.set "uses" value)).result =
      (replaceAnyway accepts new location step).result.set "uses" value :=
    Entries.result_overKey_set (by decide) step value
  rw [← hedits, ← hresult]

theorem repin_of_commit? (h : commit? step = some commit) (f : String → String) :
    repin f step = step.set "uses" (.string (setupJava ++ "@" ++ f commit)) := by
  rw [repin, h]

theorem repin_of_not_commit? (h : commit? step = none) (f : String → String) :
    repin f step = step := by
  rw [repin, h]

theorem commit?_replaceIn (location : Location) :
    commit? (replaceIn accepts new location step).result = commit? step := by
  rw [replaceIn_eq]
  split
  · exact commit?_overKey _ step
  · rfl

/-- Under another commit the same is made of a step, unless it has a distribution that is to be
replaced and only one of the commits is taken for a version that knows distributions. -/
theorem replaceIn_repin (hf : KeepsCommits f)
    (h : ∀ commit, commit? step = some commit → Replaceable accepts new step →
      (LooksKnown (f commit) ↔ LooksKnown commit)) (location : Location) :
    replaceIn accepts new location (repin f step) =
      ⟨repin f (replaceIn accepts new location step).result,
        (replaceIn accepts new location step).edits⟩ := by
  have hresult : commit? (replaceIn accepts new location step).result = commit? step :=
    commit?_replaceIn location
  cases hcommit : commit? step with
  | none => rw [repin_of_not_commit? hcommit, repin_of_not_commit? (hresult.trans hcommit)]
  | some commit =>
    have hrepinned := commit?_repin hcommit (hf commit (commit?_eq_some_iff.mp hcommit).2)
    rw [repin_of_commit? (hresult.trans hcommit)]
    by_cases hreplaceable : Replaceable accepts new step
    · have hknown : isKnown (repin f step) = isKnown step := by
        rw [Bool.eq_iff_iff, isKnown_iff_looksKnown hrepinned, isKnown_iff_looksKnown hcommit]
        exact h commit hcommit hreplaceable
      rw [replaceIn_eq, replaceIn_eq, hknown, repin_of_commit? hcommit]
      cases isKnown step with
      | true => exact replaceAnyway_set_uses location _
      | false => rfl
    · have hsame := replaceAnyway_of_not_replaceable hreplaceable location
      rw [replaceIn_eq, replaceIn_eq, repin_of_commit? hcommit, replaceAnyway_set_uses, hsame]
      split <;> split <;> rfl

/-! ## All steps -/

/-- A document with other commits in the places of those that its steps are pinned to. -/
def repinAll (f : String → String) (doc : Value) : Value :=
  (doc.overSteps fun _ step => (pure (repin f step) : Editing Entries)).result

/-- The steps of a document are treated alike with other commits in the places of theirs: the same
edits are made, and the same document comes out but for the commits. -/
def Alike (change : Value → Editing Value) (f : String → String) (doc : Value) : Prop :=
  change (repinAll f doc) = ⟨repinAll f (change doc).result, (change doc).edits⟩

theorem replace_repinAll (accepts : String → Bool) (new : String) (f : String → String)
    (doc : Value) : replace accepts new (repinAll f doc) =
      doc.overSteps fun location step => replaceIn accepts new location (repin f step) :=
  Value.overSteps_overSteps _ _ doc

theorem repinAll_replace (accepts : String → Bool) (new : String) (f : String → String)
    (doc : Value) : repinAll f (replace accepts new doc).result =
      (doc.overSteps fun location step =>
        (pure (repin f (replaceIn accepts new location step).result) : Editing Entries)).result := by
  rw [repinAll, replace, Value.overSteps_overSteps]
  rfl

theorem alike_replace {doc : Value} (hf : KeepsCommits f)
    (h : ∀ step ∈ doc.steps, ∀ commit, commit? step.2 = some commit →
      Replaceable accepts new step.2 → (LooksKnown (f commit) ↔ LooksKnown commit)) :
    Alike (replace accepts new) f doc := by
  have hresult : (replace accepts new (repinAll f doc)).result =
      repinAll f (replace accepts new doc).result := by
    rw [replace_repinAll, repinAll_replace]
    refine Value.result_overSteps_eq_iff.mpr fun step hstep => ?_
    exact (congrArg Editing.result (replaceIn_repin hf (h step hstep) step.1)).trans rfl
  have hedits : (replace accepts new (repinAll f doc)).edits = (replace accepts new doc).edits := by
    rw [replace_repinAll, replace, Value.edits_overSteps, Value.edits_overSteps]
    refine List.flatMap_congr fun step hstep => ?_
    exact (congrArg Editing.edits (replaceIn_repin hf (h step hstep) step.1)).trans rfl
  rw [Alike, ← hresult, ← hedits]

/-! ### Commits with and without digits at their starts -/

/-- A commit that starts with a letter. -/
def letters : String := String.ofList (List.replicate 40 'a')

/-- A commit that starts with the number of a version that knows distributions. -/
def digitFirst : String := String.ofList ('2' :: List.replicate 39 'a')

theorem isCommit_letters : isCommit letters = true := by decide +kernel

theorem isCommit_digitFirst : isCommit digitFirst = true := by decide +kernel

theorem not_looksKnown_letters : ¬ LooksKnown letters := by
  have hnumber : leadingNumber letters = 0 := by decide +kernel
  rw [LooksKnown, hnumber]
  decide

theorem looksKnown_digitFirst : LooksKnown digitFirst := by
  have hnumber : leadingNumber digitFirst = 2 := by decide +kernel
  rw [LooksKnown, hnumber]
  decide

/-- Under a commit that starts with a letter, nothing is done to a step. -/
theorem replaceIn_repin_letters (h : commit? step = some commit) (location : Location) :
    replaceIn accepts new location (repin (fun _ => letters) step) =
      pure (repin (fun _ => letters) step) := by
  have hrepinned := commit?_repin (f := fun _ => letters) h isCommit_letters
  rw [replaceIn_eq, if_neg fun hknown =>
    not_looksKnown_letters ((isKnown_iff_looksKnown hrepinned).mp hknown)]

/-- Under a commit that starts with a digit, the distribution of a step is replaced. -/
theorem edits_replaceIn_repin_digitFirst (h : commit? step = some commit) (location : Location) :
    (replaceIn accepts new location (repin (fun _ => digitFirst) step)).edits =
      (replaceAnyway accepts new location step).edits := by
  have hrepinned := commit?_repin (f := fun _ => digitFirst) h isCommit_digitFirst
  rw [replaceIn_eq, if_pos ((isKnown_iff_looksKnown hrepinned).mpr looksKnown_digitFirst),
    repin_of_commit? h, replaceAnyway_set_uses]

/-- All steps that are pinned to commits are treated alike if and only if none of them has a
distribution that is to be replaced. -/
theorem forall_alike_iff {doc : Value} :
    (∀ f, KeepsCommits f → Alike (replace accepts new) f doc) ↔
      ∀ step ∈ doc.steps, (commit? step.2).isSome = true → ¬ Replaceable accepts new step.2 := by
  constructor
  · intro halike step hstep hsome hreplaceable
    obtain ⟨commit, hcommit⟩ := Option.isSome_iff_exists.mp hsome
    have hletters := congrArg Editing.edits (halike (fun _ => letters) fun _ _ => isCommit_letters)
    have hdigit := congrArg Editing.edits
      (halike (fun _ => digitFirst) fun _ _ => isCommit_digitFirst)
    rw [replace_repinAll] at hletters hdigit
    have hsame := Value.edits_eq_of_sublist (fun other _ => ?_) (hletters.trans hdigit.symm) step hstep
    · rw [replaceIn_repin_letters hcommit, edits_replaceIn_repin_digitFirst hcommit] at hsame
      exact edits_replaceAnyway_ne_nil hreplaceable step.1 hsame.symm
    · cases hother : commit? other.2 with
      | none => rw [repin_of_not_commit? hother, repin_of_not_commit? hother]
      | some _ =>
        rw [replaceIn_repin_letters hother]
        exact List.nil_sublist _
  · intro hnone f hf
    refine alike_replace hf fun step hstep commit hcommit hreplaceable => ?_
    exact absurd hreplaceable (hnone step hstep (Option.isSome_iff_exists.mpr ⟨commit, hcommit⟩))

/-! ## The amendments -/

/-- The amendments that replace distributions: which of them, and by what. -/
inductive Replaces : Amendment → (String → Bool) → String → Prop
  | adoptToTemurin :
      Replaces .adoptToTemurin (fun old => old == "adopt" || old == "adopt-hotspot") "temurin"
  | openJ9ToSemeru : Replaces .openJ9ToSemeru (· == "adopt-openj9") "semeru"
  | preferTemurin : Replaces .preferTemurin (fun _ => true) "temurin"
  | replaceDistribution (options : ReplaceDistribution) :
      Replaces (.replaceDistribution options) options.old.contains options.new

theorem visit_of_replaces {amendment : Amendment} (h : Replaces amendment accepts new)
    (context : Context) :
    (fun doc => amendment.visit context doc) = replace accepts new := by
  cases h <;> rfl

/-- A commit has no number of a version if and only if it starts with a letter or with too large a
number. With other commits in the places of its own, a document is changed alike if each commit and
the one in its place are both taken for versions that know distributions, or neither is. With any
commits in their places it is changed alike if and only if no distribution behind a commit is to be
replaced. -/
theorem visit_repinned_iff {amendment : Amendment} (h : Replaces amendment accepts new)
    (context : Context) (doc : Value) :
    (∀ reference commit, (ofText reference).version = some commit → isCommit commit = true →
      ((ofText reference).major? = none ↔
        ¬ StartsWithDigit commit ∨ UInt32.size ≤ leadingNumber commit)) ∧
    (∀ f, KeepsCommits f →
      (∀ step ∈ doc.steps, ∀ commit, commit? step.2 = some commit →
        Replaceable accepts new step.2 → (LooksKnown (f commit) ↔ LooksKnown commit)) →
      Alike (fun doc => amendment.visit context doc) f doc) ∧
    ((∀ f, KeepsCommits f → Alike (fun doc => amendment.visit context doc) f doc) ↔
      ∀ step ∈ doc.steps, (commit? step.2).isSome = true → ¬ Replaceable accepts new step.2) := by
  rw [visit_of_replaces h]
  exact ⟨fun _ _ hversion hcommit => major?_eq_none_iff hversion hcommit,
    fun _ hf hsame => alike_replace hf hsame, forall_alike_iff⟩

/-! ## A small workflow -/

/-- A step that sets up Java by a commit of the action. -/
def sampleStep (commit : String) : Entries :=
  [(.string "uses", .string (setupJava ++ "@" ++ commit)),
    (.string "with", .mapping [(.string "distribution", .string "zulu")])]

/-- A workflow with the step. -/
def sampleDoc (commit : String) : Value :=
  .mapping [(.string "jobs", .mapping [(.string "build", .mapping [(.string "steps",
    .sequence [.mapping (sampleStep commit)])])])]

/-- A commit that starts with a digit, which is not that of a version. -/
def sampleCommit : String := "5ffc13f4174014e2d4d4572b3d74c3fa61aeb2c2"

theorem steps_sampleDoc (commit : String) : (sampleDoc commit).steps =
    [((Location.root.keys ["jobs", "build", "steps"]).index 0, sampleStep commit)] := rfl

theorem visit_repinned_sample :
    let context : Context := ⟨".github/workflows/ci.yml", "", false⟩
    let change := fun doc => Amendment.preferTemurin.visit context doc
    Replaces .preferTemurin (fun _ => true) "temurin" ∧
      Alike change (fun _ => digitFirst) (sampleDoc sampleCommit) ∧
      ¬ ∀ f, KeepsCommits f → Alike change f (sampleDoc sampleCommit) := by
  intro context change
  obtain ⟨-, halike, hall⟩ :=
    visit_repinned_iff .preferTemurin context (sampleDoc sampleCommit)
  have hcommit : commit? (sampleStep sampleCommit) = some sampleCommit := by decide +kernel
  rw [steps_sampleDoc] at halike hall
  refine ⟨.preferTemurin, halike _ (fun _ _ => isCommit_digitFirst) ?_, fun h => ?_⟩
  · intro step hstep commit hpinned _
    obtain rfl := List.mem_singleton.mp hstep
    obtain rfl := Option.some.inj (hcommit.symm.trans hpinned)
    have hnumber : leadingNumber sampleCommit = 5 := by decide +kernel
    refine iff_of_true looksKnown_digitFirst ?_
    rw [LooksKnown, hnumber]
    decide
  · refine hall.mp h _ (List.mem_singleton_self _) (Option.isSome_iff_exists.mpr ⟨_, hcommit⟩) ?_
    exact ⟨_, _, "zulu", rfl, rfl, rfl, by decide, rfl⟩

/-- A commit that starts with a digit has the number of a version, and only behind it the
distribution is replaced. -/
theorem major?_sampleCommit :
    isCommit sampleCommit = true ∧ (ofText (setupJava ++ "@" ++ sampleCommit)).major? = some 5 ∧
      (preferTemurin (sampleDoc sampleCommit)).edits.map (·.detail) = ["zulu -> temurin"] ∧
      (preferTemurin (sampleDoc letters)).edits = [] := by
  decide +kernel

end Distribution

end WorkflowRecipes
