import Mathlib.Data.List.TakeWhile
import WorkflowRecipes.Audit.Reference
import WorkflowRecipes.Proofs.Document.Swapping
import WorkflowRecipes.Proofs.Pattern.Stretches
import WorkflowRecipes.Proofs.Text.Occurrences

/-!
# Remarks on commits

Whether a remark gives the commit of a reference a version is read off the lines of the file, and
there a reference is looked for as a part of the text. So it is also found at the end of the name of
another action, and a remark on that one counts.

Results:
1. `namesVersion_append`: a remark that names a version does so behind any text.
2. `isVersioned_iff`: a reference is versioned by a remark on any place where its text stands.
3. `findings_own_iff`: the findings are those on references that are versioned where they stand for
   themselves, if and only if each one that is versioned at the end of a longer name is so too.
-/

namespace WorkflowRecipes.CommitRemark

open Pattern

variable {line before stretch after : List Char} {file reference : String}

/-! ## Remarks -/

theorem isFree_numbers : Unpinned.numbers.IsFree := by
  simp [Unpinned.numbers]

theorem isFree_blanks : blanks.IsFree := by
  simp [blanks]

/-- What the remarks that name a version describe does not depend on what stands before it. -/
theorem covers_versionRemark (h : versionRemark.Covers before stretch after)
    (before' : List Char) : versionRemark.Covers before' stretch after := by
  obtain htag | ⟨_, hother, hcovers⟩ := covers_anyOf.mp h
  · refine covers_anyOf.mpr (.inl (IsFree.covers ?_ htag _ _))
    simp [isFree_numbers, isFree_blanks]
  · refine covers_anyOf.mpr (.inr ⟨_, hother, ?_⟩)
    simp only [List.mem_cons, List.not_mem_nil, or_false] at hother
    obtain rfl | rfl := hother
    · -- The end of the line is asked for, but only behind the number.
      obtain ⟨s, t, rfl, hs, hend⟩ := hcovers
      refine ⟨s, t, rfl, IsFree.covers ?_ hs _ _, covers_atEnd.mpr (covers_atEnd.mp hend)⟩
      simp [isFree_numbers, isFree_blanks]
    · refine IsFree.covers ?_ hcovers _ _
      have heither : (text "version" ||| text "ver").IsFree := ⟨isFree_text _, isFree_text _⟩
      simp [isFree_numbers, isFree_blanks, heither]

/-- A remark that names a version does so behind any text. -/
theorem namesVersion_append (before : List Char) (h : namesVersion line = true) :
    namesVersion (before ++ line) = true := by
  obtain ⟨front, stretch, after, rfl, hcovers⟩ := occursIn_iff_covers.mp h
  exact occursIn_iff_covers.mpr
    ⟨before ++ front, stretch, after, by simp only [List.append_assoc], covers_versionRemark hcovers _⟩

/-- All that a pattern describes has a character. -/
def Needs (pattern : Pattern) (c : Char) : Prop :=
  ∀ before stretch after, pattern.Covers before stretch after → c ∈ stretch

theorem Needs.append {first : Pattern} {c : Char} (h : Needs first c) (second : Pattern) :
    Needs (first ++ second) c := by
  rintro before _ after ⟨s, t, rfl, hs, -⟩
  exact List.mem_append_left t (h _ _ _ hs)

theorem needs_versionRemark : Needs versionRemark '#' := by
  have hremark : Needs (text "#" ++ blanks) '#' := by
    refine Needs.append ?_ blanks
    intro before stretch after h
    rw [covers_text.mp h]
    decide
  intro before stretch after h
  obtain htag | ⟨_, hother, hcovers⟩ := covers_anyOf.mp h
  · exact ((((((hremark.append _).append _).append _).append _).append _).append _) _ _ _ htag
  · simp only [List.mem_cons, List.not_mem_nil, or_false] at hother
    obtain rfl | rfl := hother
    · exact ((((hremark.append _).append _).append _).append _) _ _ _ hcovers
    · exact ((((((hremark.append _).append _).append _).append _).append _).append _) _ _ _ hcovers

/-- Without a number sign there is no remark. -/
theorem hash_mem_of_namesVersion (h : namesVersion line = true) : '#' ∈ line := by
  obtain ⟨before, stretch, after, rfl, hcovers⟩ := occursIn_iff_covers.mp h
  exact List.mem_append_left _ (List.mem_append_right _ (needs_versionRemark _ _ _ hcovers))

/-! ## Places -/

/-- Whether a character can stand in the name of an action. -/
def isNamePart (c : Char) : Bool := c.isAlphanum || "-_./".toList.contains c

/-- Whether the name of an action goes on behind a text. -/
def endsInName (before : List Char) : Bool := before.getLast?.any isNamePart

/-- A line holds the reference, behind the beginning of a longer name or not. A remark behind it on
the line, or one of those right above the line, names a version. -/
def Remarked (longer : Bool) (file reference : String) : Prop :=
  ∃ earlier before behind later,
    Text.lines file.toList = earlier ++ (before ++ reference.toList ++ behind) :: later ∧
      endsInName before = longer ∧
      (namesVersion behind = true ∨
        ∃ remark ∈ earlier.reverse.takeWhile isRemark, namesVersion remark = true)

/-- The reference stands for itself on a line, and a remark there names a version. -/
abbrev RemarkedAlone : String → String → Prop := Remarked false

/-- The reference stands at the end of a longer name, and a remark there names a version. -/
abbrev RemarkedWithin : String → String → Prop := Remarked true

/-- The reference stands on a line with a remark that names a version, or right below one. -/
def RemarkedBelow (reference : List Char) (above : List (List Char)) (line : List Char) : Prop :=
  ∃ before behind, line = before ++ reference ++ behind ∧
    (namesVersion behind = true ∨ ∃ remark ∈ above.takeWhile isRemark, namesVersion remark = true)

/-- Any place on the line is as good as the first one, as more text follows the first. -/
theorem remarkedBelow_iff {reference : List Char} {above : List (List Char)} :
    RemarkedBelow reference above line ↔
      (match Text.splitAt? reference line with
      | some (_, behind) => namesVersion behind || (above.takeWhile isRemark).any namesVersion
      | none => false) = true := by
  constructor
  · rintro ⟨before, behind, rfl, hremark⟩
    obtain ⟨first, between, hsplit⟩ := Text.exists_splitAt? reference before behind
    rw [hsplit]
    exact Bool.or_eq_true_iff.mpr (hremark.imp (namesVersion_append between) List.any_eq_true.mpr)
  · intro h
    split at h
    · next before behind hsplit =>
      exact ⟨before, behind, Text.eq_append_of_splitAt? hsplit,
        (Bool.or_eq_true_iff.mp h).imp id List.any_eq_true.mp⟩
    · cases h

theorem isVersionedFrom_iff {reference : List Char} {above lines : List (List Char)} :
    isVersionedFrom reference above lines = true ↔ ∃ earlier line later,
      lines = earlier ++ line :: later ∧ RemarkedBelow reference (earlier.reverse ++ above) line := by
  induction lines generalizing above with
  | nil => simp [isVersionedFrom]
  | cons line below ih =>
    rw [isVersionedFrom, Bool.or_eq_true]
    refine (or_congr remarkedBelow_iff.symm ih).trans ⟨?_, ?_⟩
    · rintro (hhere | ⟨earlier, other, later, rfl, hlater⟩)
      · exact ⟨[], line, below, rfl, hhere⟩
      · exact ⟨line :: earlier, other, later, rfl, by simpa using hlater⟩
    · rintro ⟨_ | ⟨first, earlier⟩, other, later, heq, hother⟩
      · obtain ⟨rfl, rfl⟩ := List.cons.inj heq
        exact .inl hother
      · obtain ⟨rfl, rfl⟩ := List.cons.inj heq
        exact .inr ⟨earlier, other, later, rfl, by simpa using hother⟩

/-- A reference is versioned by a remark on any place where its text stands, be it at the end of a
longer name. -/
theorem isVersioned_iff : isVersioned file reference = true ↔
    RemarkedAlone file reference ∨ RemarkedWithin file reference := by
  rw [isVersioned, isVersionedFrom_iff]
  constructor
  · rintro ⟨earlier, _, later, hlines, before, behind, rfl, hremark⟩
    rw [List.append_nil] at hremark
    cases hlonger : endsInName before with
    | false => exact .inl ⟨earlier, before, behind, later, hlines, hlonger, hremark⟩
    | true => exact .inr ⟨earlier, before, behind, later, hlines, hlonger, hremark⟩
  · rintro (⟨earlier, before, behind, later, hlines, -, hremark⟩ |
      ⟨earlier, before, behind, later, hlines, -, hremark⟩) <;>
    · rw [← List.append_nil earlier.reverse] at hremark
      exact ⟨earlier, _, later, hlines, before, behind, rfl, hremark⟩

/-! ## The findings -/

/-- Whether a reference names a commit of an action that is kept elsewhere. -/
def namesCommit (reference : String) : Bool :=
  (ActionRef.ofText reference).isRemote &&
    (ActionRef.ofText reference).version.any (isRunOf Unpinned.commitLength isSmallHex)

/-- What is said about a versioned commit. -/
def warning : String :=
  "Action is pinned to a commit SHA but has a version comment that may not match. " ++
    "Verify the comment reflects the actual pinned version."

/-- The references of a document that name commits, each with its place. -/
def commitReferences (doc : Value) : List (Location × String) :=
  (doc.entriesWithin.filterMap Value.textEntry?).filterMap fun entry =>
    if entry.2.1 = "uses" ∧ namesCommit entry.2.2 = true then some (entry.1, entry.2.2) else none

/-- The finding on a reference. -/
def report (reference : Location × String) : Finding := ⟨reference.1, warning⟩

open Classical in
theorem findings_eq (file : String) (doc : Value) : findings file doc =
    ((commitReferences doc).filter fun reference =>
      RemarkedAlone file reference.2 ∨ RemarkedWithin file reference.2).map report := by
  rw [findings, Finding.underTextKey_eq, commitReferences]
  generalize doc.entriesWithin.filterMap Value.textEntry? = entries
  rw [← List.filterMap_eq_map, List.filterMap_filter, List.filterMap_filterMap]
  refine List.filterMap_congr fun entry _ => ?_
  obtain ⟨place, key, reference⟩ := entry
  have hproblem : problem? file reference =
      if namesCommit reference && isVersioned file reference then some warning else none := rfl
  simp only [Finding.onText?, hproblem, ← isVersioned_iff]
  by_cases hkey : key = "uses" <;> cases namesCommit reference <;> simp [hkey, report]

open Classical in
/-- A reference is versioned by a remark on it where it stands for itself or at the end of a longer
name, and the findings are those on the commits that are versioned. They are those on the commits
that are versioned where they stand for themselves if and only if each one that is versioned at the
end of a longer name is so too. -/
theorem findings_own_iff (file : String) (doc : Value) :
    (∀ reference, isVersioned file reference = true ↔
      RemarkedAlone file reference ∨ RemarkedWithin file reference) ∧
    findings file doc = ((commitReferences doc).filter fun reference =>
      RemarkedAlone file reference.2 ∨ RemarkedWithin file reference.2).map report ∧
    (findings file doc = ((commitReferences doc).filter fun reference =>
        RemarkedAlone file reference.2).map report ↔
      ∀ reference ∈ commitReferences doc,
        RemarkedWithin file reference.2 → RemarkedAlone file reference.2) := by
  refine ⟨fun _ => isVersioned_iff, findings_eq file doc, ?_⟩
  rw [findings_eq]
  constructor
  · intro hall reference hreference hwithin
    -- Those remarked alone are among those found, and as many.
    have hsub : ((commitReferences doc).filter fun reference =>
        RemarkedAlone file reference.2).Sublist ((commitReferences doc).filter fun reference =>
          RemarkedAlone file reference.2 ∨ RemarkedWithin file reference.2) :=
      List.monotone_filter_right _ fun reference halone =>
        decide_eq_true (Or.inl (of_decide_eq_true halone))
    have heq := hsub.eq_of_length (by simpa using (congrArg List.length hall).symm)
    have hfound : reference ∈ (commitReferences doc).filter fun reference =>
        RemarkedAlone file reference.2 := by
      rw [heq]
      exact List.mem_filter.mpr ⟨hreference, decide_eq_true (Or.inr hwithin)⟩
    exact of_decide_eq_true (List.mem_filter.mp hfound).2
  · intro hnone
    refine congrArg (List.map report) (List.filter_congr fun reference hreference => ?_)
    rw [decide_eq_decide, or_iff_left_of_imp (hnone reference hreference)]

/-! ## A small workflow -/

/-- A commit of an action. -/
def sampleReference : String := "actions/checkout@8e5e7e5ab8b370d6c329ec480221332ada57f0ab"

/-- A workflow in which a remark gives the commit of another action a version. -/
def sampleFile : String :=
  "jobs:\n  build:\n    steps:\n      - uses: my-" ++ sampleReference ++ " # v4\n      - uses: " ++
    sampleReference ++ "\n"

/-- What the workflow holds. -/
def sampleDoc : Value :=
  .mapping [(.string "jobs", .mapping [(.string "build", .mapping [(.string "steps", .sequence
    [.mapping [(.string "uses", .string ("my-" ++ sampleReference))],
      .mapping [(.string "uses", .string sampleReference)]])])])]

/-- The place of the reference of a step in the workflow. -/
def samplePlace (step : Nat) : Location :=
  ((Location.root.keys ["jobs", "build", "steps"]).index step).key "uses"

/-- The lines of the workflow before its steps. -/
def sampleHead : List (List Char) := ["jobs:".toList, "  build:".toList, "    steps:".toList]

theorem lines_sampleFile : Text.lines sampleFile.toList = sampleHead ++
    ["      - uses: my-".toList ++ sampleReference.toList ++ " # v4".toList,
      "      - uses: ".toList ++ sampleReference.toList] := by
  decide +kernel

theorem namesVersion_v4 : namesVersion " # v4".toList = true := by
  refine occursIn_iff_covers.mpr ⟨" ".toList, "# v4".toList, [], by decide, ?_⟩
  refine covers_anyOf.mpr (.inr ⟨_, List.mem_cons_self, ?_⟩)
  refine ⟨"# v4".toList, [], by decide, ?_, covers_atEnd.mpr ⟨rfl, rfl⟩⟩
  refine ⟨"# v4".toList, [], by decide, ?_, covers_many_one.mpr (by simp)⟩
  refine ⟨"# v".toList, "4".toList, by decide, ?_, ?_⟩
  · refine ⟨"# ".toList, "v".toList, by decide, ?_, covers_maybe.mpr (.inr (covers_text.mpr rfl))⟩
    exact ⟨"#".toList, " ".toList, by decide, covers_text.mpr rfl,
      covers_many_one.mpr (List.all_eq_true.mp rfl)⟩
  · refine ⟨"4".toList, [], by decide, covers_many1_one.mpr ⟨by decide, ?_⟩, ?_⟩
    · exact List.all_eq_true.mp (by decide +kernel)
    · exact ⟨0, Nat.le_refl 0, by simp, rfl⟩

/-- No line of the workflow is a remark, and on the one that ends in a remark the reference stands
behind the beginning of a longer name. -/
theorem places_sampleFile : ∀ line ∈ Text.lines sampleFile.toList, isRemark line = false ∧
    ('#' ∈ line → ∀ n < line.length + 1,
      Text.startsWith sampleReference.toList (line.drop n) = true →
        endsInName (line.take n) = true) := by
  rw [lines_sampleFile]
  decide +kernel

theorem not_remarkedAlone_sample : ¬ RemarkedAlone sampleFile sampleReference := by
  rintro ⟨earlier, before, behind, later, hlines, halone, hremark | ⟨remark, hremark, -⟩⟩
  · have hline := places_sampleFile (before ++ sampleReference.toList ++ behind) (by simp [hlines])
    have hhash : '#' ∈ before ++ sampleReference.toList ++ behind :=
      List.mem_append_right _ (hash_mem_of_namesVersion hremark)
    have hlonger := hline.2 hhash before.length (by simp only [List.length_append]; omega)
      (Text.startsWith_iff.mpr ⟨behind, by simp⟩)
    rw [List.append_assoc, List.take_left, halone] at hlonger
    cases hlonger
  · have hmem : remark ∈ Text.lines sampleFile.toList := by
      rw [hlines]
      exact List.mem_append_left _ (List.mem_reverse.mp ((List.takeWhile_sublist _).mem hremark))
    have hnot := (places_sampleFile remark hmem).1
    rw [List.mem_takeWhile_imp hremark] at hnot
    cases hnot

/-- A reference is versioned by a remark on another action with a name that ends in its own. -/
theorem isVersioned_end_of_name :
    isVersioned sampleFile sampleReference = true ∧ ¬ RemarkedAlone sampleFile sampleReference ∧
      (findings sampleFile sampleDoc).map (·.location.text) =
        ["$.jobs.build.steps[0].uses", "$.jobs.build.steps[1].uses"] := by
  have hwithin : RemarkedWithin sampleFile sampleReference :=
    ⟨sampleHead, "      - uses: my-".toList, " # v4".toList, _, lines_sampleFile, by decide,
      .inl namesVersion_v4⟩
  have hother : RemarkedAlone sampleFile ("my-" ++ sampleReference) :=
    ⟨sampleHead, "      - uses: ".toList, " # v4".toList, _, lines_sampleFile, by decide,
      .inl namesVersion_v4⟩
  have hreferences : commitReferences sampleDoc =
      [(samplePlace 0, "my-" ++ sampleReference), (samplePlace 1, sampleReference)] := by
    decide +kernel
  refine ⟨isVersioned_iff.mpr (.inr hwithin), not_remarkedAlone_sample, ?_⟩
  rw [findings_eq, hreferences]
  simp only [List.filter_cons, hother, hwithin, true_or, or_true]
  decide +kernel

end WorkflowRecipes.CommitRemark
