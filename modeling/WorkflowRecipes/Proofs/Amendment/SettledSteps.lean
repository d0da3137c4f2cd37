import WorkflowRecipes.Amendment.Action
import WorkflowRecipes.Amendment.Command
import WorkflowRecipes.Amendment.Java
import WorkflowRecipes.Proofs.Document.Settling
import WorkflowRecipes.Proofs.Text.References

/-!
# Amendments of steps settle

Each amendment of steps leaves a step alone that it has changed: the distribution or version is the
wanted one, the step uses the wanted action, or the cache is on.

Results:
1. `Distribution.settles_replace`, `ToolVersion.settles_raiseAll`, `Retarget.settles_all`,
   `Slack.settles_visit`: amendments of single steps.
2. `JavaCache.settles_visit`, `MoveToUv.settles_visit`: amendments that drop steps as well.
3. `GradleWrapper.settles_visit`: the amendment of scripts.
-/

namespace WorkflowRecipes

open Editing

namespace Entries

theorem action?_overKey_of_ne {f : Value → Editing Value} {name : String} (h : name ≠ "uses")
    (step : Entries) : (overKey name f step).result.action? = step.action? := by
  rw [action?, uses?, text?_overKey_of_ne h, action?, uses?]

theorem usesAction_eq_of_uses?_eq {step step' : Entries} (h : step.uses? = step'.uses?)
    (action : String) : step.usesAction action = step'.usesAction action := by
  rw [usesAction, action?, h, usesAction, action?]

end Entries

/-- What replaces a scalar is left alone when it is replaced by the same text again. -/
theorem Value.replacement_replacement (value : Value) (text : String) :
    (value.replacement text).replacement text = value.replacement text := by
  unfold replacement
  cases hn : smallNatural? text with
  | none => cases value <;> rfl
  | some n => cases value <;> rfl

theorem Version.raised?_eq_some {old new : String} {least : Nat}
    (h : Version.raised? old least = some new) : new = toString least := by
  unfold Version.raised? at h
  split at h
  · split at h
    · exact (Option.some.inj h).symm
    · cases h
  · cases h

namespace Distribution

theorem isKnown_overKey (f : Value → Editing Value) (step : Entries) :
    isKnown (step.overKey "with" f).result = isKnown step := by
  rw [isKnown, Entries.action?_overKey_of_ne (by decide), isKnown]

theorem settles_replaceIn (accepts : String → Bool) (new : String) (location : Location) :
    Settles (replaceIn accepts new location) := by
  refine Settles.guard ?_ (isKnown_overKey _)
  refine Entries.settles_overKey (Value.settles_overKey ?_ "distribution") "with"
  -- A slot is done when it is what would replace it.
  refine settles_of_fixed (fun slot => slot.replacement new = slot) ?_ ?_
  · intro slot hslot
    split
    · split
      · exact hslot
      · rfl
    · rfl
  · intro slot
    split
    · split
      · exact .inl (Value.replacement_replacement slot new)
      · exact .inr rfl
    · exact .inr rfl

theorem settles_replace (accepts : String → Bool) (new : String) :
    Settles (replace accepts new) :=
  Value.settles_overSteps (settles_replaceIn accepts new)

end Distribution

namespace ToolVersion

theorem settles_raise (location : Location) (least : Nat) : Settles (raise location least) := by
  refine settles_of_fixed (fun slot => slot.replacement (toString least) = slot) ?_ ?_
  · intro slot hslot
    unfold raise
    split
    · split
      · next hraised =>
        rw [Version.raised?_eq_some hraised]
        exact hslot
      · rfl
    · rfl
  · intro slot
    unfold raise
    split
    · split
      · next hraised =>
        rw [Version.raised?_eq_some hraised]
        exact .inl (Value.replacement_replacement slot _)
      · exact .inr rfl
    · exact .inr rfl

theorem settles_raiseAll (action key : String) (least : Nat) :
    Settles (raiseAll action key least) := by
  refine Value.settles_overSteps fun location => ?_
  refine Settles.guard (Entries.settles_overKey (Value.settles_overKey
    (settles_raise _ least) key) "with") fun step => ?_
  rw [Entries.action?_overKey_of_ne (by decide)]

end ToolVersion

namespace Retarget

theorem settles_all (action target : String) : Settles (all action target) := by
  refine Value.settles_overSteps fun location => ?_
  refine settles_of_fixed (fun s => s.uses? = some target) ?_ ?_
  · intro s hs
    rw [step, hs]
    dsimp only
    rw [if_neg fun h => h.2 rfl]
    rfl
  · intro s
    unfold step
    split
    · split
      · exact .inl (Entries.text?_set_self s "uses" target)
      · exact .inr rfl
    · exact .inr rfl

end Retarget

namespace Slack

theorem not_startsWith_target : startsWith target source = false := by decide +kernel

theorem settles_visit : Settles visit := by
  refine Value.settles_overSteps fun location => ?_
  refine settles_of_fixed (fun s => s.uses? = some target) ?_ ?_
  · intro s hs
    rw [step, hs, Option.any_some, not_startsWith_target]
    rfl
  · intro s
    unfold step
    split
    · split
      · exact .inl (Entries.text?_set_self _ "uses" target)
      · exact .inr rfl
    · exact .inr rfl

end Slack

namespace JavaCache

/-- A step on which the cache is not switched on: it is not meant, or has something to say about the
cache. -/
def Rests (step : Entries) : Prop :=
  (step.usesAction setupJava && step.hasChild "with") = false ∨
    ∃ value inputs, step.get? "with" = some value ∧ value.entries? = some inputs ∧
      inputs.hasKey "cache" = true

theorem enableWith_of_hasKey {inputs : Entries} (h : inputs.hasKey "cache" = true) (tool : String)
    (location : Location) : enableWith tool location inputs = pure inputs := by
  rw [enableWith, if_pos h]

theorem hasKey_enableWith (tool : String) (location : Location) (inputs : Entries) :
    (enableWith tool location inputs).result.hasKey "cache" = true := by
  unfold enableWith
  cases h : inputs.hasKey "cache" with
  | true => exact h
  | false => exact Entries.hasKey_set_self inputs "cache" _

theorem enableIn_of_rests {step : Entries} (h : Rests step) (tool : String) (location : Location) :
    enableIn tool location step = pure step := by
  unfold enableIn
  cases hguard : step.usesAction setupJava && step.hasChild "with" with
  | false => rfl
  | true =>
    obtain h | ⟨value, inputs, hget, hinputs, hcache⟩ := h
    · rw [hguard] at h
      cases h
    rw [if_pos rfl, Entries.overChild, hget]
    have hvalue : Value.overEntries (enableWith tool location) value = pure value := by
      refine Value.overEntries_eq_pure value fun entries h => ?_
      rw [hinputs] at h
      cases h
      exact enableWith_of_hasKey hcache tool location
    cases value with
    | null => cases hinputs
    | _ => exact Entries.overKey_eq_pure fun _ h => Option.some.inj (hget.symm.trans h) ▸ hvalue

/-- A step on which the cache was switched on says so. -/
theorem rests_enableIn (tool : String) (location : Location) (step : Entries) :
    Rests (enableIn tool location step).result := by
  unfold enableIn
  cases hguard : step.usesAction setupJava && step.hasChild "with" with
  | false => exact .inl hguard
  | true =>
    rw [if_pos rfl]
    rw [Bool.and_eq_true] at hguard
    refine .inr ?_
    have hfresh : ∃ value inputs,
        (step.set "with" (.mapping (enableWith tool location []).result)).get? "with" = some value ∧
          value.entries? = some inputs ∧ inputs.hasKey "cache" = true :=
      ⟨_, _, Entries.get?_set_self _ _ _, rfl, hasKey_enableWith tool location []⟩
    unfold Entries.overChild
    cases hget : step.get? "with" with
    | none => exact hfresh
    | some value =>
      have hchanged : value.entries?.isSome → ∃ value' inputs,
          (step.overKey "with" (Value.overEntries (enableWith tool location))).result.get? "with" =
            some value' ∧ value'.entries? = some inputs ∧ inputs.hasKey "cache" = true := by
        intro hsome
        obtain ⟨inputs, hinputs⟩ := Option.isSome_iff_exists.mp hsome
        refine ⟨(Value.overEntries (enableWith tool location) value).result,
          (enableWith tool location inputs).result, ?_, ?_, hasKey_enableWith tool location inputs⟩
        · rw [Entries.get?_overKey_self, hget]
          rfl
        · rw [Value.entries?_overEntries, hinputs]
          rfl
      have hchild := hguard.2
      rw [Entries.hasChild, hget] at hchild
      cases value with
      | null => exact hfresh
      | _ => exact hchanged hchild

theorem result_dropCacheSteps (steps : List Value) (i : Nat) :
    (dropCacheSteps i steps).result = steps.filter fun step => !isCacheStep step := by
  induction steps generalizing i with
  | nil => rfl
  | cons step rest ih =>
    rw [dropCacheSteps, List.filter_cons]
    cases isCacheStep step with
    | true => exact ih (i + 1)
    | false => exact congrArg (step :: ·) (ih (i + 1))

theorem settles_overJobSteps : Settles overJobSteps := by
  -- The steps are done when the cache is on in all that are left, whatever the tool.
  refine settles_of_fixed
    (fun steps => ∀ step ∈ steps, ∀ entries, step.entries? = some entries → Rests entries) ?_ ?_
  · intro steps hsteps
    unfold overJobSteps
    split
    · rfl
    · next tool _ =>
      have henabled : Value.overIndexed (fun i step =>
          step.overEntries (enableIn tool (stepsLocation.index i))) 0 steps = pure steps := by
        refine Value.overIndexed_eq_pure (fun i step hstep => ?_) 0
        refine Value.overEntries_eq_pure step fun entries hentries => ?_
        exact enableIn_of_rests (hsteps step hstep entries hentries) tool _
      rw [henabled]
      rfl
  · intro steps
    unfold overJobSteps
    split
    · exact .inr rfl
    · next tool _ =>
      refine .inl ?_
      have henabled : ∀ step ∈ (Value.overIndexed (fun i step =>
          step.overEntries (enableIn tool (stepsLocation.index i))) 0 steps).result,
            ∀ entries, step.entries? = some entries → Rests entries := by
        intro step hstep entries hentries
        obtain ⟨j, old, -, rfl⟩ := Value.mem_overIndexed hstep
        rw [Value.entries?_overEntries, Option.map_eq_some_iff] at hentries
        obtain ⟨before, -, rfl⟩ := hentries
        exact rests_enableIn tool _ before
      dsimp only
      split
      · exact henabled
      · intro step hstep
        rw [result_bind, result_dropCacheSteps] at hstep
        exact henabled step (List.mem_filter.mp hstep).1

theorem settles_visit : Settles visit :=
  Value.settles_overKeys (Value.settles_overItems settles_overJobSteps) _

end JavaCache

namespace MoveToUv

/-- The ref of the action that steps are moved to. -/
def target (options : MoveToUv) : String := setupUv ++ "@" ++ options.version

theorem uses?_overStep (options : MoveToUv) (location : Location) {step : Entries}
    (h : step.usesAction setupPython = true) :
    (options.overStep location step).result.uses? = some options.target := by
  rw [overStep, if_pos h]
  simp only [Editing.result_bind]
  rw [Entries.uses?, Entries.text?_overKey_of_ne (by decide), Entries.text?_set_self, target]

/-- A step that was moved does not set up Python. -/
theorem usesAction_of_uses? {options : MoveToUv} {step : Entries}
    (h : step.uses? = some options.target) : step.usesAction setupPython = false := by
  rw [Entries.usesAction, Entries.action?, h, Option.map_some, Option.any_some, ActionRef.isNamed,
    target, ActionRef.name_ofText (by decide)]
  decide

/-- No step sets up Python afterwards. -/
theorem usesAction_overStep (options : MoveToUv) (location : Location) (step : Entries) :
    (options.overStep location step).result.usesAction setupPython = false := by
  cases hpython : step.usesAction setupPython with
  | true => exact usesAction_of_uses? (options.uses?_overStep location hpython)
  | false =>
    rw [overStep, hpython, if_neg Bool.false_ne_true]
    split
    · split
      · rw [← hpython]
        refine Entries.usesAction_eq_of_uses?_eq ?_ setupPython
        exact Entries.text?_set_of_ne (by decide) step _
      · exact hpython
    · exact hpython

theorem result_dropUpgrades (location : Location) (steps : List Value) (i : Nat) :
    (dropUpgrades location i steps).result = steps.filter fun step => !isUpgrade step := by
  induction steps generalizing i with
  | nil => rfl
  | cons step rest ih =>
    rw [dropUpgrades, List.filter_cons]
    cases isUpgrade step with
    | true => exact ih (i + 1)
    | false => exact congrArg (step :: ·) (ih (i + 1))

/-- The steps of a job that sets up Python, after the change. -/
theorem result_overJobSteps (options : MoveToUv) (location : Location) {steps : List Value}
    (h : steps.any setsUpPython = true) :
    (options.overJobSteps location steps).result =
      (Value.overIndexed (fun i step => step.overEntries (options.overStep (location.index i))) 0
        (if options.convertCommands then steps.filter fun step => !isUpgrade step
          else steps)).result := by
  rw [overJobSteps, if_pos h]
  cases options.convertCommands with
  | true =>
    simp only [if_true, result_bind, result_dropUpgrades]
  | false => rfl

theorem settles_overJobSteps (options : MoveToUv) (location : Location) :
    Settles (options.overJobSteps location) := by
  refine settles_of_fixed (fun steps => steps.any setsUpPython = false) ?_ ?_
  · intro steps hsteps
    rw [overJobSteps, hsteps]
    rfl
  · intro steps
    cases hany : steps.any setsUpPython with
    | false =>
      rw [overJobSteps, hany]
      exact .inr rfl
    | true =>
      refine .inl (List.any_eq_false.mpr fun step hstep => ?_)
      rw [result_overJobSteps options location hany] at hstep
      obtain ⟨j, old, -, rfl⟩ := Value.mem_overIndexed hstep
      rw [setsUpPython, Value.entries?_overEntries, Option.any_map]
      cases old.entries? with
      | none => exact Bool.false_ne_true
      | some entries =>
        rw [Option.any_some, Bool.not_eq_true]
        exact usesAction_overStep options _ entries

theorem settles_visit (options : MoveToUv) : Settles options.visit :=
  Value.settles_overJobs (f := fun location => Entries.overKey "steps"
      (Value.overItems (options.overJobSteps (location.key "steps"))))
    fun location => Entries.settles_overKey
      (Value.settles_overItems (settles_overJobSteps options (location.key "steps"))) "steps"

end MoveToUv

namespace GradleWrapper

theorem call?_cases {runner call : String} (h : call? runner = some call) :
    call = "./gradlew " ∨ call = "gradlew " := by
  unfold call? at h
  split at h
  · exact .inl (Option.some.inj h).symm
  · split at h
    · exact .inr (Option.some.inj h).symm
    · cases h

/-- A line on which the wrapper is called does not call the tool. -/
theorem overLine_overLine {runner call : String} (h : call? runner = some call)
    (line : List Char) :
    overLine call.toList (overLine call.toList line) = overLine call.toList line := by
  unfold overLine
  cases hline : Text.dropPrefix? "gradle ".toList line with
  | none => simp only [hline]
  | some rest =>
    have hnot : Text.dropPrefix? "gradle ".toList (call.toList ++ rest) = none := by
      rcases call?_cases h with rfl | rfl <;> rfl
    simp only [hnot]

theorem not_mem_overLine {runner call : String} (h : call? runner = some call) {line : List Char}
    (hline : '\n' ∉ line) : '\n' ∉ overLine call.toList line := by
  unfold overLine
  cases hrest : Text.dropPrefix? "gradle ".toList line with
  | none => exact hline
  | some rest =>
    rw [Text.dropPrefix?_eq_some_iff] at hrest
    rw [hrest, List.mem_append, not_or] at hline
    dsimp only
    rw [List.mem_append, not_or]
    refine ⟨?_, hline.2⟩
    rcases call?_cases h with rfl | rfl <;> decide

/-- The lines of a script are changed one by one. -/
theorem pieces_overScript {runner call : String} (h : call? runner = some call) (script : String) :
    Text.pieces '\n' (overScript call script).toList =
      (Text.pieces '\n' script.toList).map (overLine call.toList) := by
  rw [overScript, String.toList_ofList]
  refine Text.pieces_join ?_ fun text htext => ?_
  · rw [ne_eq, List.map_eq_nil_iff]
    exact Text.pieces_ne_nil _ _
  · obtain ⟨line, hline, rfl⟩ := List.mem_map.mp htext
    exact not_mem_overLine h (Text.not_mem_of_mem_pieces hline)

theorem overScript_overScript {runner call : String} (h : call? runner = some call)
    (script : String) : overScript call (overScript call script) = overScript call script := by
  rw [overScript, pieces_overScript h, List.map_map, overScript]
  congr 2
  exact List.map_congr_left fun line _ => overLine_overLine h line

theorem result_change (call : String) (location : Location) (script : String) :
    (change call location script).result = overScript call script := by
  unfold change
  dsimp only
  split
  · next h => exact h.symm
  · rfl

theorem changeInEntries_cons_string (call : String) (location : Location) (key : Value)
    (script : String) (rest : Entries) :
    (changeInEntries call location ((key, .string script) :: rest)).result =
      (key, .string (if key.keyText = "run" then overScript call script else script)) ::
        (changeInEntries call location rest).result := by
  rw [changeInEntries]
  split
  · rw [← result_change call (location.key key.keyText)]
    rfl
  · rfl

theorem changeInEntries_cons_other {value : Value} (h : ∀ script, value ≠ .string script)
    (call : String) (location : Location) (key : Value) (rest : Entries) :
    (changeInEntries call location ((key, value) :: rest)).result =
      (key, (changeAt call (location.key key.keyText) value).result) ::
        (changeInEntries call location rest).result := by
  cases value with
  | string script => exact absurd rfl (h script)
  | _ => rfl

theorem changeAt_ne_string {call : String} {location : Location} {value : Value}
    (h : ∀ script, value ≠ .string script) (script : String) :
    (changeAt call location value).result ≠ .string script := by
  cases value with
  | string script => exact absurd rfl (h script)
  | _ => exact Value.noConfusion

section Settles

variable {runner call : String}

mutual

theorem settles_changeAt (h : call? runner = some call) (location : Location) :
    Settles (changeAt call location)
  | .mapping entries => congrArg Value.mapping (settles_changeInEntries h location entries)
  | .sequence items => congrArg Value.sequence (settles_changeInItems h location 0 items)
  | .tagged _ _ | .string _ | .number _ | .bool _ | .null => rfl

theorem settles_changeInEntries (h : call? runner = some call) (location : Location) :
    Settles (changeInEntries call location)
  | [] => rfl
  | (key, value) :: rest => by
    have hrest := settles_changeInEntries h location rest
    have hvalue := settles_changeAt h (location.key key.keyText) value
    by_cases hstring : ∃ script, value = .string script
    · obtain ⟨script, rfl⟩ := hstring
      rw [changeInEntries_cons_string, changeInEntries_cons_string, hrest]
      split
      · rw [overScript_overScript h]
      · rfl
    · have hne : ∀ script, value ≠ .string script := fun script heq => hstring ⟨script, heq⟩
      rw [changeInEntries_cons_other hne, changeInEntries_cons_other (changeAt_ne_string hne),
        hvalue, hrest]

theorem settles_changeInItems (h : call? runner = some call) (location : Location) (i : Nat) :
    Settles (changeInItems call location i)
  | [] => rfl
  | item :: rest => by
    have hitem := settles_changeAt h (location.index i) item
    have hrest := settles_changeInItems h location (i + 1) rest
    show _ :: _ = _
    rw [hitem, hrest]
    rfl

end

end Settles

theorem text?_changeAt (call : String) (location : Location) (value : Value) :
    (changeAt call location value).result.text? = value.text? := by
  cases value <;> rfl

/-- The text under a key that is not `run` stays, that of the runner too. -/
theorem text?_changeInEntries (call : String) (location : Location) {name : String}
    (hname : name ≠ "run") (entries : Entries) :
    Entries.text? (changeInEntries call location entries).result name = entries.text? name := by
  induction entries with
  | nil => rfl
  | cons entry rest ih =>
    obtain ⟨key, value⟩ := entry
    have hrun : key.isKey name = true → key.keyText ≠ "run" := by
      intro hkey
      rw [Value.isKey_iff.mp hkey]
      exact hname
    by_cases hstring : ∃ script, value = .string script
    · obtain ⟨script, rfl⟩ := hstring
      rw [changeInEntries_cons_string, Entries.text?, Entries.text?]
      cases hkey : key.isKey name with
      | true =>
        rw [Entries.get?_cons_of_isKey hkey, Entries.get?_cons_of_isKey hkey, if_neg (hrun hkey)]
      | false =>
        rw [Entries.get?_cons_of_not_isKey hkey, Entries.get?_cons_of_not_isKey hkey]
        exact ih
    · rw [changeInEntries_cons_other fun script heq => hstring ⟨script, heq⟩, Entries.text?,
        Entries.text?]
      cases hkey : key.isKey name with
      | true =>
        rw [Entries.get?_cons_of_isKey hkey, Entries.get?_cons_of_isKey hkey]
        exact text?_changeAt call _ value
      | false =>
        rw [Entries.get?_cons_of_not_isKey hkey, Entries.get?_cons_of_not_isKey hkey]
        exact ih

theorem settles_overJob (location : Location) : Settles (overJob location) := by
  intro job
  unfold overJob
  cases hcall : (job.text? "runs-on").bind call? with
  | none =>
    dsimp only
    rw [result_pure, hcall]
    rfl
  | some call =>
    obtain ⟨runner, -, hrunner⟩ := Option.bind_eq_some_iff.mp hcall
    dsimp only
    have hrunsOn : Entries.text? (changeInEntries call location job).result "runs-on" =
        job.text? "runs-on" := text?_changeInEntries call location (by decide) job
    rw [hrunsOn, hcall]
    exact settles_changeInEntries hrunner location job

theorem settles_visit (context : Context) : Settles (visit context) := by
  unfold visit
  cases context.hasGradleWrapper with
  | false => exact settles_pure
  | true => exact Value.settles_overJobs settles_overJob

end GradleWrapper

end WorkflowRecipes
