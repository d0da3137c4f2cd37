import Mathlib.Data.List.Infix
import WorkflowRecipes.Audit.Script
import WorkflowRecipes.Proofs.Document.Equality
import WorkflowRecipes.Proofs.Document.Swapping
import WorkflowRecipes.Proofs.Pattern.Stretches
import WorkflowRecipes.Proofs.Text.Folding
import WorkflowRecipes.Proofs.Text.Occurrences

/-!
# Writes to the environment file

A script that writes to the environment file still does so with more text around it. But a script is
left alone if it looks as if it wrote fixed texts only, and for that it is looked at as a whole: one
line with the command `echo`, before any sign that appends to a file, is enough.

Results:
1. `isIn_write_append`: the signs of a write are found whatever stands around them.
2. `isFixed_iff`: when a script looks as if it wrote fixed texts only.
3. `exists_longer_unreported_iff`: which scripts that are reported can be hidden in longer ones.
4. `longer_reported_iff`: a script that is reported is reported with more text around it if and only
   if it does not look so then.
-/

namespace WorkflowRecipes.EnvironmentFile

open Pattern

variable {script before stretch after : List Char}

/-! ## Writes -/

theorem isFree_anyCaseText (s : String) : (anyCaseText s).IsFree := by
  refine isFree_chain fun pattern hpattern => ?_
  obtain ⟨c, -, rfl⟩ := List.mem_map.mp hpattern
  exact isFree_one _

theorem isFree_write : write.IsFree := by
  refine isFree_anyOf ?_ ?_ <;>
    simp [redirect, shellName, cmdlet, blanks, quote, isFree_anyCaseText]

/-- Small letters are a text in any case. -/
theorem covers_anyCaseText {s : String} (h : ∀ c ∈ s.toList, c.toNat < 0x80) :
    (anyCaseText s).Covers before (s.toList.map Char.toLower) after := by
  refine covers_chain_ones.mpr (List.forall₂_map_right_iff.mpr (List.forall₂_same.mpr ?_))
  intro c hc
  rw [← Text.folded_of_ascii (h c hc)]
  exact List.contains_iff_mem.mpr List.mem_cons_self

theorem isIn_write_append {script : String} (h : write.isIn script = true) (before after : String) :
    write.isIn (before ++ script ++ after) = true :=
  isIn_append isFree_write h before after

/-! ## Fixed texts -/

/-- A line starts behind the text. -/
def EndsLine (text : List Char) : Prop := ∀ c ∈ text.getLast?, c = '\n'

/-- A line starts with the command `echo`, and a sign that appends to a file stands anywhere behind
it. -/
def AppendsEcho (script : List Char) : Prop :=
  ∃ before gap space words after,
    script = before ++ gap ++ "echo".toList ++ space ++ words ++ ">>".toList ++ after ∧
      EndsLine before ∧ (∀ c ∈ gap, Text.isBlank c = true) ∧ space ≠ [] ∧
      ∀ c ∈ space, Text.isBlank c = true

/-- The script has nothing that a shell replaces, and appends what `echo` prints. -/
def LooksFixed (script : List Char) : Prop :=
  '$' ∉ script ∧ '\x60' ∉ script ∧ AppendsEcho script

theorem covers_atLineStart : atLineStart.Covers before stretch after ↔
    stretch = [] ∧ EndsLine before := by
  obtain rfl | ⟨before, last, rfl⟩ := List.eq_nil_or_concat before <;>
    simp [atLineStart, Covers, EndsLine]

theorem appendsEcho_of_occursIn (h : fixedEcho.occursIn script = true) : AppendsEcho script := by
  obtain ⟨before, stretch, after, rfl, hcovers⟩ := occursIn_iff_covers.mp h
  obtain ⟨_, sign, rfl, ⟨_, gap', rfl, ⟨_, quote', rfl, ⟨_, words, rfl, ⟨_, quote, rfl,
    ⟨_, space, rfl, ⟨_, command, rfl, ⟨start, gap, rfl, hstart, hgap⟩, hcommand⟩, hspace⟩, -⟩, -⟩,
    -⟩, -⟩, hsign⟩ := hcovers
  obtain ⟨rfl, hline⟩ := covers_atLineStart.mp hstart
  obtain rfl := covers_text.mp hcommand
  obtain rfl := covers_text.mp hsign
  obtain ⟨hne, hblank⟩ := covers_many1_one.mp hspace
  refine ⟨before, gap, space, quote ++ words ++ quote' ++ gap', after, ?_, hline,
    covers_many_one.mp hgap, hne, hblank⟩
  simp only [List.append_assoc, List.nil_append]

theorem occursIn_of_looksFixed (h : LooksFixed script) : fixedEcho.occursIn script = true := by
  obtain ⟨hdollar, htick, before, gap, space, words, after, rfl, hline, hgap, hne, hspace⟩ := h
  have hwords : ∀ c ∈ words, (!("$\x60".toList.contains c)) = true := by
    intro c hc
    have hne : c ≠ '$' ∧ c ≠ '\x60' := by
      constructor <;> rintro rfl
      · simp [hc] at hdollar
      · simp [hc] at htick
    simp [hne]
  refine occursIn_iff_covers.mpr
    ⟨before, gap ++ "echo".toList ++ space ++ words ++ ">>".toList, after, ?_, ?_⟩
  · simp only [List.append_assoc]
  · refine ⟨gap ++ "echo".toList ++ space ++ words, _, rfl, ?_, covers_text.mpr rfl⟩
    refine ⟨gap ++ "echo".toList ++ space ++ words, [], by simp, ?_, covers_many_one.mpr (by simp)⟩
    refine covers_append_maybe ⟨gap ++ "echo".toList ++ space, words, rfl, ?_,
      covers_many_one.mpr hwords⟩
    refine covers_append_maybe ⟨gap ++ "echo".toList, space, rfl, ?_,
      covers_many1_one.mpr ⟨hne, hspace⟩⟩
    refine ⟨gap, _, rfl, ?_, covers_text.mpr rfl⟩
    exact ⟨[], gap, rfl, covers_atLineStart.mpr ⟨rfl, hline⟩, covers_many_one.mpr hgap⟩

theorem isFixed_iff {script : String} : isFixed script = true ↔ LooksFixed script.toList := by
  have hnone : ∀ c : Char, holds script (String.singleton c) = false ↔ c ∉ script.toList := by
    intro c
    rw [Bool.eq_false_iff, Ne, holds_iff, String.toList_singleton, List.singleton_infix_iff]
  have hdollar := hnone '$'
  have htick := hnone '\x60'
  rw [isFixed, Bool.and_eq_true, Bool.and_eq_true, Bool.not_eq_true', Bool.not_eq_true']
  constructor
  · rintro ⟨⟨hecho, hd⟩, ht⟩
    exact ⟨hdollar.mp hd, htick.mp ht, appendsEcho_of_occursIn hecho⟩
  · intro h
    exact ⟨⟨occursIn_of_looksFixed h, hdollar.mpr h.1⟩, htick.mpr h.2.1⟩

/-! ## Reports -/

theorem isSome_problem?_iff {script : String} : (problem? script).isSome = true ↔
    write.isIn script = true ∧ ¬ LooksFixed script.toList := by
  rw [problem?, ← isFixed_iff]
  by_cases hwrite : write.isIn script = true <;> cases isFixed script <;> simp [hwrite]

/-- Behind a line that prints a fixed text to a file, a script looks fixed if nothing in it is
replaced by a shell. -/
theorem looksFixed_behind_echo {script : String} (hdollar : '$' ∉ script.toList)
    (htick : '\x60' ∉ script.toList) : LooksFixed ("echo start >> log\n" ++ script).toList := by
  rw [String.toList_append]
  refine ⟨?_, ?_, [], [], " ".toList, "start ".toList, " log\n".toList ++ script.toList, ?_, ?_⟩
  · exact List.not_mem_append (by decide) hdollar
  · exact List.not_mem_append (by decide) htick
  · rw [← List.append_assoc]
    exact congrArg (· ++ script.toList) (by decide)
  · exact ⟨by simp [EndsLine], by simp, by decide, List.all_eq_true.mp rfl⟩

/-- A script that is reported can be hidden in a longer one if and only if nothing in it is replaced
by a shell. -/
theorem exists_longer_unreported_iff {script : String} (h : (problem? script).isSome = true) :
    (∃ before after, problem? (before ++ script ++ after) = none) ↔
      '$' ∉ script.toList ∧ '\x60' ∉ script.toList := by
  constructor
  · rintro ⟨before, after, hnone⟩
    have hwrite := isIn_write_append (isSome_problem?_iff.mp h).1 before after
    have hlooks : LooksFixed (before ++ script ++ after).toList := by
      by_contra hnot
      have hsome := isSome_problem?_iff.mpr ⟨hwrite, hnot⟩
      rw [hnone] at hsome
      cases hsome
    simp only [LooksFixed, String.toList_append, List.mem_append, not_or] at hlooks
    exact ⟨hlooks.1.1.2, hlooks.2.1.1.2⟩
  · rintro ⟨hdollar, htick⟩
    refine ⟨"echo start >> log\n", "", Option.not_isSome_iff_eq_none.mp fun hsome => ?_⟩
    rw [String.append_empty] at hsome
    exact (isSome_problem?_iff.mp hsome).2 (looksFixed_behind_echo hdollar htick)

/-! ## A small workflow -/

/-- A workflow that runs a script on the request of a stranger. -/
def sampleWorkflow (script : String) : Value :=
  .mapping [(.string "on", .string "pull_request_target"),
    (.string "jobs", .mapping [(.string "build", .mapping [(.string "steps", .sequence
      [.mapping [(.string "run", .string script)]])])])]

/-- The place of the script in the workflow. -/
def samplePlace : Location := ((Location.root.keys ["jobs", "build", "steps"]).index 0).key "run"

/-- A script that writes what a file holds to the environment file. -/
def sampleScript : String := "type vars >> %github_env%"

theorem findings_sampleWorkflow (script : String) : findings (sampleWorkflow script) =
    ((problem? script).map fun message => ⟨samplePlace, message⟩).toList := by
  have hprivileged : Event.isPrivileged (sampleWorkflow script) = true := by rfl
  rw [findings, if_pos hprivileged, Finding.underTextKey_eq]
  have htexts : (sampleWorkflow script).entriesWithin.filterMap Value.textEntry? =
      [((Location.root.key "on"), "on", "pull_request_target"), (samplePlace, "run", script)] := by
    rfl
  rw [htexts, List.filterMap_cons, List.filterMap_cons, List.filterMap_nil]
  simp only [Finding.onText?, String.reduceEq, ↓reduceIte]
  cases problem? script <;> rfl

theorem swap_sampleWorkflow (script script' : String) :
    Value.Swap "run" (.string script) (.string script') samplePlace.hops (sampleWorkflow script)
      (sampleWorkflow script') := by
  have hstep : Value.Swap "run" (.string script) (.string script') [.index 0, .key "run"] _ _ :=
    @Value.Swap.item _ _ _ [] [] _ _ _ (@Value.Swap.here _ _ _ [] [] (.string "run") rfl)
  have hjob := @Value.Swap.entry _ _ _ [] [] (.string "steps") _ _ _ hstep
  have hjobs := @Value.Swap.entry _ _ _ [] [] (.string "build") _ _ _ hjob
  exact @Value.Swap.entry _ _ _ [(.string "on", .string "pull_request_target")] [] (.string "jobs")
    _ _ _ hjobs

theorem isIn_write_sampleScript : write.isIn sampleScript = true := by
  refine occursIn_iff_covers.mpr ⟨"type vars ".toList, ">> %github_env%".toList, [], by decide, ?_⟩
  refine covers_anyOf.mpr (.inr ⟨_, List.mem_cons_self, covers_append_maybe ?_⟩)
  refine ⟨">> ".toList, "%github_env%".toList, by decide, covers_append_maybe ?_, ?_⟩
  · refine ⟨">>".toList, " ".toList, by decide, ?_,
      covers_many_one.mpr (List.all_eq_true.mp rfl)⟩
    exact ⟨">".toList, ">".toList, by decide, covers_text.mpr rfl,
      covers_maybe.mpr (.inr (covers_text.mpr rfl))⟩
  · have hname : "%github_env%".toList = "%GITHUB_ENV%".toList.map Char.toLower := by decide
    rw [hname]
    exact covers_anyCaseText (by simp)

theorem echo_infix_of_appendsEcho (h : AppendsEcho script) : "echo".toList <:+: script := by
  obtain ⟨before, gap, space, words, after, rfl, -⟩ := h
  exact ⟨before ++ gap, space ++ words ++ ">>".toList ++ after, by simp only [List.append_assoc]⟩

theorem isSome_problem?_sampleScript : (problem? sampleScript).isSome = true :=
  isSome_problem?_iff.mpr ⟨isIn_write_sampleScript, fun h =>
    absurd (echo_infix_of_appendsEcho h.2.2) (by decide)⟩

/-! ## Longer scripts -/

/-- A script that is reported is reported with more text before and after it if and only if it does
not look then as if it wrote fixed texts only. No other finding is changed. -/
theorem longer_reported_iff {doc old new : Value} {place : Location} {script before after : String}
    (hplace : (place, "run", old) ∈ doc.entriesWithin) (hold : old.text? = some script)
    (hnew : new.text? = some (before ++ script ++ after))
    (hprivileged : Event.isPrivileged doc = true) (hreported : (problem? script).isSome = true) :
    (∃ doc', Value.Swap "run" old new place.hops doc doc') ∧
      ∀ doc', Value.Swap "run" old new place.hops doc doc' →
        ∃ earlier later message,
          findings doc = earlier ++ ⟨place, message⟩ :: later ∧
          findings doc' = earlier ++ ((problem? (before ++ script ++ after)).map
            fun message => ⟨place, message⟩).toList ++ later ∧
          ((problem? (before ++ script ++ after)).isSome = true ↔
            ¬ LooksFixed (before ++ script ++ after).toList) := by
  refine ⟨Value.exists_swap_of_mem hplace new, fun doc' hswap => ?_⟩
  have hevents : Event.isPrivileged doc' = true := by
    rw [← hprivileged, Event.isPrivileged, Event.privileged?, Value.names_of_swap hswap (by decide)]
    rfl
  obtain ⟨message, hmessage⟩ := Option.isSome_iff_exists.mp hreported
  obtain ⟨earlier, later, hfound, hfound'⟩ :=
    Finding.exists_underTextKey_of_swap hswap "run" problem?
  rw [Value.textsFrom_of_text? hold] at hfound
  rw [Value.textsFrom_of_text? hnew] at hfound'
  refine ⟨earlier, later, message, ?_, ?_, ?_⟩
  · rw [findings, if_pos hprivileged, hfound]
    simp [Finding.onText?, hmessage]
  · rw [findings, if_pos hevents, hfound']
    cases h : problem? (before ++ script ++ after) <;> simp [Finding.onText?, h]
  · rw [isSome_problem?_iff, and_iff_right]
    exact isIn_write_append (isSome_problem?_iff.mp hreported).1 before after

theorem longer_reported_sample :
    let longer := "rem set up\n" ++ sampleScript ++ "\nrem done"
    Event.isPrivileged (sampleWorkflow sampleScript) = true ∧
      (problem? sampleScript).isSome = true ∧ ¬ LooksFixed longer.toList ∧
      ∃ earlier later message message',
        findings (sampleWorkflow sampleScript) = earlier ++ ⟨samplePlace, message⟩ :: later ∧
        findings (sampleWorkflow longer) = earlier ++ ⟨samplePlace, message'⟩ :: later := by
  intro longer
  have hlooks : ¬ LooksFixed longer.toList := fun h =>
    absurd (echo_infix_of_appendsEcho h.2.2) (by decide)
  have hplace : (samplePlace, "run", Value.string sampleScript) ∈
      (sampleWorkflow sampleScript).entriesWithin := by
    decide
  have hprivileged : Event.isPrivileged (sampleWorkflow sampleScript) = true := by rfl
  obtain ⟨-, hfindings⟩ := @longer_reported_iff (sampleWorkflow sampleScript) (.string sampleScript)
    (.string longer) samplePlace sampleScript "rem set up\n" "\nrem done" hplace rfl rfl hprivileged
    isSome_problem?_sampleScript
  refine ⟨hprivileged, isSome_problem?_sampleScript, hlooks, ?_⟩
  obtain ⟨earlier, later, message, hfound, hfound', hiff⟩ :=
    hfindings _ (swap_sampleWorkflow sampleScript longer)
  obtain ⟨message', hmessage'⟩ := Option.isSome_iff_exists.mp (hiff.mpr hlooks)
  rw [hmessage'] at hfound'
  exact ⟨earlier, later, message, message', hfound, by simpa using hfound'⟩

/-- A line that prints a fixed text to another file hides the write. -/
theorem findings_behind_echo :
    (findings (sampleWorkflow sampleScript)).map (·.location.text) = ["$.jobs.build.steps[0].run"] ∧
      findings (sampleWorkflow ("echo start >> log\n" ++ sampleScript)) = [] := by
  have hlooks := looksFixed_behind_echo (by decide : '$' ∉ sampleScript.toList) (by decide)
  rw [findings_sampleWorkflow, findings_sampleWorkflow]
  constructor
  · obtain ⟨message, hmessage⟩ := Option.isSome_iff_exists.mp isSome_problem?_sampleScript
    rw [hmessage]
    rfl
  · rw [Option.not_isSome_iff_eq_none.mp fun h => (isSome_problem?_iff.mp h).2 hlooks]
    rfl

end WorkflowRecipes.EnvironmentFile
