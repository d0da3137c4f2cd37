import WorkflowRecipes.Proofs.Amendment.SettledSteps
import WorkflowRecipes.Proofs.Document.Keeping
import WorkflowRecipes.Proofs.Text.Occurrences
import WorkflowRecipes.Proofs.Text.References

/-!
# Caches that are switched on

The cache is switched on in the steps of the job `build` that set Java up and say nothing about it,
for the build tool that the steps run. The separate cache steps are dropped then, and only then: a
job in which nothing is switched on is left alone as a whole. Each edit has the position that its
step had before.

Results:
1. `buildTool?_eq_some_iff`: the build tool of steps.
2. `enableIn_of_lacks`, `enableIn_of_not_lacks`: what becomes of one step.
3. `switches_enabled`, `Switches.not_wants`: what becomes of the steps.
4. `visit_cached`: what becomes of a document.
-/

namespace WorkflowRecipes.JavaCache

variable {tool : String} {steps : List Value} {step : Value} {entries : Entries}

/-! ## What is meant -/

/-- One of the steps runs something in which a name occurs. -/
def Mentions (steps : List Value) (name : String) : Prop :=
  ∃ step ∈ steps, ∃ run, run? step = some run ∧ name.toList <:+: run.toList

/-- The tool that steps build with: Gradle if one of them mentions it, else Maven if one of them
mentions it. -/
inductive BuildsWith (steps : List Value) : String → Prop
  | gradle : Mentions steps "gradle" → BuildsWith steps "gradle"
  | maven : ¬ Mentions steps "gradle" → Mentions steps "mvn" → BuildsWith steps "maven"

/-- The inputs of a step are absent, null, or a mapping that says nothing about the cache. -/
inductive LacksCache (step : Entries) : Prop
  | absent : step.get? "with" = none → LacksCache step
  | null : step.get? "with" = some .null → LacksCache step
  | mapping {slot : Value} {inputs : Entries} : step.get? "with" = some slot →
      slot.entries? = some inputs → inputs.get? "cache" = none → LacksCache step

/-- The cache is switched on in a step, and all else is kept. -/
inductive SwitchedOn (tool : String) : Entries → Entries → Prop
  | absent {step : Entries} : step.get? "with" = none →
      SwitchedOn tool step
        (step ++ [(.string "with", .mapping [(.string "cache", .string tool)])])
  | null {before after : Entries} : before.hasKey "with" = false →
      SwitchedOn tool (before ++ (.string "with", .null) :: after)
        (before ++ (.string "with", .mapping [(.string "cache", .string tool)]) :: after)
  | mapping {before after inputs : Entries} {slot : Value} : before.hasKey "with" = false →
      slot.entries? = some inputs → inputs.get? "cache" = none →
      SwitchedOn tool (before ++ (.string "with", slot) :: after)
        (before ++
          (.string "with", slot.withEntries (inputs ++ [(.string "cache", .string tool)])) :: after)

/-- A step sets Java up and says nothing about the cache. -/
def Wants (step : Value) : Prop :=
  ∃ entries, step.entries? = some entries ∧ entries.NamesAction "actions/setup-java" ∧
    LacksCache entries

/-- A step is one with the separate cache action. -/
def IsSeparate (step : Value) : Prop :=
  ∃ entries, step.entries? = some entries ∧ entries.NamesAction "actions/cache"

/-- Steps from position `i` on, what becomes of them, and the edits for caches that are switched on
and for steps that are dropped, each at the position of its step. -/
inductive Switches (tool : String) :
    Nat → List Value → List Value → List Edit → List Edit → Prop
  | nil {i : Nat} : Switches tool i [] [] [] []
  | switch {i : Nat} {step : Value} {old new : Entries} {rest others : List Value}
      {added dropped : List Edit} : step.entries? = some old →
      old.NamesAction "actions/setup-java" → SwitchedOn tool old new →
      Switches tool (i + 1) rest others added dropped →
      Switches tool i (step :: rest) (step.withEntries new :: others)
        (⟨(stepsLocation.index i).keys ["with", "cache"], "cache: " ++ tool⟩ :: added) dropped
  | drop {i : Nat} {step : Value} {rest others : List Value} {added dropped : List Edit} :
      IsSeparate step → Switches tool (i + 1) rest others added dropped →
      Switches tool i (step :: rest) others added
        (⟨stepsLocation.index i, "removed actions/cache step"⟩ :: dropped)
  | keep {i : Nat} {step : Value} {rest others : List Value} {added dropped : List Edit} :
      ¬ Wants step → ¬ IsSeparate step → Switches tool (i + 1) rest others added dropped →
      Switches tool i (step :: rest) (step :: others) added dropped

/-- What becomes of a document: nothing changes unless a step of the job `build` wants the cache of
a build tool; then the steps of that job do, and nothing else. -/
inductive Cached (doc : Value) : Editing Value → Prop
  | kept : (∀ slot steps tool, doc.lookup? ["jobs", "build", "steps"] = some slot →
      slot.items? = some steps → BuildsWith steps tool → ∀ step ∈ steps, ¬ Wants step) →
      Cached doc (pure doc)
  | switched {slot doc' : Value} {steps others : List Value} {tool : String}
      {added dropped : List Edit} : doc.lookup? ["jobs", "build", "steps"] = some slot →
      slot.items? = some steps → BuildsWith steps tool →
      Switches tool 0 steps others added dropped → added ≠ [] →
      Value.ReplacedAt slot (slot.withItems others) ["jobs", "build", "steps"] doc doc' →
      Cached doc ⟨doc', added ++ dropped⟩

/-! ## Build tools -/

theorem mentions_iff {name : String} :
    Mentions steps name ↔ (steps.filterMap run?).any (fun run => holds run name) = true := by
  simp only [List.any_eq_true, List.mem_filterMap, holds_iff]
  constructor
  · rintro ⟨step, hmem, run, hrun, hname⟩
    exact ⟨run, ⟨step, hmem, hrun⟩, hname⟩
  · rintro ⟨run, ⟨step, hmem, hrun⟩, hname⟩
    exact ⟨step, hmem, run, hrun, hname⟩

theorem buildTool?_eq_some_iff : buildTool? steps = some tool ↔ BuildsWith steps tool := by
  have hgradle : Mentions steps "gradle" ↔ _ := mentions_iff
  have hmaven : Mentions steps "mvn" ↔ _ := mentions_iff
  unfold buildTool?
  dsimp only
  constructor
  · intro h
    split at h
    · next hmentions => exact Option.some.inj h ▸ .gradle (hgradle.mpr hmentions)
    · next hnot =>
      split at h
      · next hmentions =>
        exact Option.some.inj h ▸ .maven (mt hgradle.mp hnot) (hmaven.mpr hmentions)
      · cases h
  · intro h
    cases h with
    | gradle hmentions => rw [if_pos (hgradle.mp hmentions)]
    | maven hnot hmentions => rw [if_neg (mt hgradle.mpr hnot), if_pos (hmaven.mp hmentions)]

/-! ## One step -/

/-- The inputs of a step in which the cache is switched on are set. -/
theorem SwitchedOn.exists_set {old new : Entries} (h : SwitchedOn tool old new) :
    ∃ value, new = old.set "with" value := by
  cases h with
  | absent hnone =>
    refine ⟨_, (Entries.set_of_not_hasKey ?_ _).symm⟩
    rw [Entries.hasKey_eq, hnone]
    rfl
  | null hbefore => exact ⟨_, (Entries.set_split hbefore _ _ _).symm⟩
  | mapping hbefore => exact ⟨_, (Entries.set_split hbefore _ _ _).symm⟩

theorem SwitchedOn.usesAction {old new : Entries} (h : SwitchedOn tool old new) (action : String) :
    new.usesAction action = old.usesAction action := by
  obtain ⟨value, rfl⟩ := h.exists_set
  exact Entries.usesAction_eq_of_uses?_eq (Entries.text?_set_of_ne (by decide) old value) action

theorem enableWith_of_absent {inputs : Entries} (h : inputs.get? "cache" = none) (tool : String)
    (location : Location) : enableWith tool location inputs =
      .one (location.keys ["with", "cache"]) ("cache: " ++ tool)
        (inputs ++ [(.string "cache", .string tool)]) := by
  have hkey : inputs.hasKey "cache" = false := by rw [Entries.hasKey_eq, h]; rfl
  rw [enableWith, hkey, if_neg Bool.false_ne_true, Entries.set_of_not_hasKey hkey]

theorem LacksCache.hasChild (h : LacksCache entries) : entries.hasChild "with" = true := by
  unfold Entries.hasChild
  cases h with
  | absent hnone => rw [hnone]
  | null hnull => rw [hnull]
  | @mapping slot _ hslot hinputs =>
    rw [hslot]
    cases slot with
    | null => rfl
    | _ => exact congrArg Option.isSome hinputs

/-- The inputs of a step that has some are changed in their place. -/
theorem overChild_of_entries {f : Entries → Editing Entries} {slot : Value} {inputs : Entries}
    (hslot : entries.get? "with" = some slot) (hinputs : slot.entries? = some inputs) :
    entries.overChild "with" f = entries.overKey "with" (Value.overEntries f) := by
  rw [Entries.overChild, hslot]
  cases slot with
  | null => cases hinputs
  | _ => rfl

/-- The cache is switched on where the step says nothing about it. -/
theorem enableIn_of_lacks (huses : entries.usesAction setupJava = true) (h : LacksCache entries)
    (tool : String) (location : Location) : ∃ new, SwitchedOn tool entries new ∧
      enableIn tool location entries =
        .one (location.keys ["with", "cache"]) ("cache: " ++ tool) new := by
  rw [enableIn, huses, h.hasChild, Bool.true_and, if_pos rfl]
  cases h with
  | absent hnone =>
    refine ⟨_, .absent hnone, ?_⟩
    have hkey : entries.hasKey "with" = false := by rw [Entries.hasKey_eq, hnone]; rfl
    rw [Entries.overChild, hnone]
    dsimp only
    rw [enableWith_of_absent rfl]
    exact congrArg (Editing.one _ _) (Entries.set_of_not_hasKey hkey _)
  | null hnull =>
    obtain ⟨before, after, rfl, hbefore⟩ := Entries.exists_split hnull
    refine ⟨_, .null hbefore, ?_⟩
    rw [Entries.overChild, hnull]
    dsimp only
    rw [enableWith_of_absent rfl]
    exact congrArg (Editing.one _ _) (Entries.set_split hbefore _ _ _)
  | mapping hslot hinputs hcache =>
    rw [overChild_of_entries hslot hinputs]
    obtain ⟨before, after, rfl, hbefore⟩ := Entries.exists_split hslot
    refine ⟨_, .mapping hbefore hinputs hcache, ?_⟩
    rw [Entries.overKey_split hbefore, Value.overEntries_eq_map hinputs,
      enableWith_of_absent hcache]
    rfl

/-- Any other step is left alone. -/
theorem enableIn_of_not_lacks (h : ¬ (entries.usesAction setupJava = true ∧ LacksCache entries))
    (tool : String) (location : Location) : enableIn tool location entries = pure entries := by
  refine enableIn_of_rests ?_ tool location
  cases hguard : entries.usesAction setupJava && entries.hasChild "with" with
  | false => exact .inl hguard
  | true =>
    obtain ⟨huses, hchild⟩ := Bool.and_eq_true_iff.mp hguard
    have hlacks : ¬ LacksCache entries := fun hlacks => h ⟨huses, hlacks⟩
    refine .inr ?_
    cases hslot : entries.get? "with" with
    | none => exact absurd (.absent hslot) hlacks
    | some slot =>
      cases hinputs : slot.entries? with
      | none =>
        rw [Entries.hasChild, hslot] at hchild
        cases slot with
        | null => exact absurd (.null hslot) hlacks
        | _ => cases (congrArg Option.isSome hinputs).symm.trans hchild
      | some inputs =>
        refine ⟨slot, inputs, rfl, hinputs, ?_⟩
        cases hcache : inputs.get? "cache" with
        | none => exact absurd (.mapping hslot hinputs hcache) hlacks
        | some _ => rw [Entries.hasKey_eq, hcache]; rfl

/-! ## All steps -/

theorem isCacheStep_iff : isCacheStep step = true ↔ IsSeparate step := by
  rw [isCacheStep, Option.any_eq_true]
  exact exists_congr fun entries => and_congr_right fun _ => Entries.usesAction_iff (by decide)

theorem wants_iff : Wants step ↔ ∃ entries, step.entries? = some entries ∧
    (entries.usesAction setupJava = true ∧ LacksCache entries) :=
  exists_congr fun _ => and_congr_right fun _ =>
    and_congr_left fun _ => (Entries.usesAction_iff (by decide)).symm

/-- No step sets Java up and is one with the separate cache action. -/
theorem IsSeparate.not_wants (h : IsSeparate step) : ¬ Wants step := by
  rintro ⟨entries, hentries, hnames, -⟩
  obtain ⟨entries', hentries', hnames'⟩ := h
  obtain rfl := Option.some.inj (hentries.symm.trans hentries')
  exact absurd (hnames.unique (by decide) (by decide) hnames') (by decide)

theorem dropCacheSteps_cons (h : isCacheStep step = true) (i : Nat) (rest : List Value) :
    dropCacheSteps i (step :: rest) = ⟨(dropCacheSteps (i + 1) rest).result,
      ⟨stepsLocation.index i, "removed actions/cache step"⟩ ::
        (dropCacheSteps (i + 1) rest).edits⟩ := by
  rw [dropCacheSteps, if_pos h]
  rfl

theorem dropCacheSteps_cons_of_not (h : isCacheStep step = false) (i : Nat) (rest : List Value) :
    dropCacheSteps i (step :: rest) = (step :: ·) <$> dropCacheSteps (i + 1) rest := by
  rw [dropCacheSteps, if_neg (by rw [h]; decide)]
  rfl

/-- The steps with the cache switched on. -/
def enabled (tool : String) (i : Nat) (steps : List Value) : Editing (List Value) :=
  Value.overIndexed (fun i step => step.overEntries (enableIn tool (stepsLocation.index i))) i steps

theorem switches_enabled (tool : String) (i : Nat) (steps : List Value) :
    Switches tool i steps (dropCacheSteps i (enabled tool i steps).result).result
      (enabled tool i steps).edits (dropCacheSteps i (enabled tool i steps).result).edits := by
  induction steps generalizing i with
  | nil => exact .nil
  | cons step rest ih =>
    have hrest := ih (i + 1)
    rw [enabled, Value.edits_overIndexed_cons, Value.result_overIndexed_cons]
    by_cases hwants : Wants step
    · obtain ⟨old, hold, huses, hlacks⟩ := wants_iff.mp hwants
      obtain ⟨new, hnew, henable⟩ := enableIn_of_lacks huses hlacks tool (stepsLocation.index i)
      have hseparate : isCacheStep (step.withEntries new) = false := by
        rw [isCacheStep, Value.entries?_withEntries hold, Option.any_some, hnew.usesAction]
        refine Bool.eq_false_iff.mpr fun hcache => ?_
        exact (isCacheStep_iff.mp (by rw [isCacheStep, hold, Option.any_some, hcache])).not_wants
          hwants
      rw [Value.overEntries_eq_map hold, henable, Editing.edits_map, Editing.result_map,
        Editing.one, dropCacheSteps_cons_of_not hseparate, Editing.edits_map, Editing.result_map]
      exact .switch hold ((Entries.usesAction_iff (by decide)).mp huses) hnew hrest
    · have hkept : step.overEntries (enableIn tool (stepsLocation.index i)) = pure step :=
        Value.overEntries_eq_pure step fun entries hentries =>
          enableIn_of_not_lacks (fun hlacks => hwants (wants_iff.mpr ⟨entries, hentries, hlacks⟩))
            tool _
      rw [hkept, Editing.edits_pure, Editing.result_pure, List.nil_append]
      cases hcache : isCacheStep step with
      | true =>
        rw [dropCacheSteps_cons hcache]
        exact .drop (isCacheStep_iff.mp hcache) hrest
      | false =>
        rw [dropCacheSteps_cons_of_not hcache, Editing.edits_map, Editing.result_map]
        exact .keep hwants (fun hsep => by rw [isCacheStep_iff.mpr hsep] at hcache; cases hcache)
          hrest

/-- Where nothing is switched on, no step wants it. -/
theorem Switches.not_wants {i : Nat} {others : List Value} {added dropped : List Edit}
    (h : Switches tool i steps others added dropped) (hnone : added = []) :
    ∀ step ∈ steps, ¬ Wants step := by
  induction h with
  | nil => exact List.forall_mem_nil _
  | switch => cases hnone
  | drop hseparate _ ih => exact List.forall_mem_cons.mpr ⟨hseparate.not_wants, ih hnone⟩
  | keep hwants _ _ ih => exact List.forall_mem_cons.mpr ⟨hwants, ih hnone⟩

theorem overJobSteps_of_not_wants
    (h : ∀ tool, BuildsWith steps tool → ∀ step ∈ steps, ¬ Wants step) :
    overJobSteps steps = pure steps := by
  unfold overJobSteps
  split
  · rfl
  · next tool htool =>
    have hkept : enabled tool 0 steps = pure steps := by
      refine Value.overIndexed_eq_pure (fun i step hstep => ?_) 0
      refine Value.overEntries_eq_pure step fun entries hentries => ?_
      refine enableIn_of_not_lacks (fun hlacks => ?_) tool _
      exact h tool (buildTool?_eq_some_iff.mp htool) step hstep
        (wants_iff.mpr ⟨entries, hentries, hlacks⟩)
    show (if (enabled tool 0 steps).edits.isEmpty then enabled tool 0 steps
      else enabled tool 0 steps >>= dropCacheSteps 0) = _
    rw [hkept]
    rfl

theorem overJobSteps_of_wants (htool : BuildsWith steps tool) (h : ∃ step ∈ steps, Wants step) :
    ∃ others added dropped, overJobSteps steps = ⟨others, added ++ dropped⟩ ∧
      Switches tool 0 steps others added dropped ∧ added ≠ [] := by
  have hswitches := switches_enabled tool 0 steps
  have hadded : (enabled tool 0 steps).edits ≠ [] := by
    intro hnone
    obtain ⟨step, hstep, hwants⟩ := h
    exact hswitches.not_wants hnone step hstep hwants
  refine ⟨_, _, _, ?_, hswitches, hadded⟩
  rw [overJobSteps, buildTool?_eq_some_iff.mpr htool]
  show (if (enabled tool 0 steps).edits.isEmpty then enabled tool 0 steps
    else enabled tool 0 steps >>= dropCacheSteps 0) = _
  rw [if_neg (mt List.isEmpty_iff.mp hadded)]
  rfl

/-- Unless a step of the job `build` sets Java up without a word about the cache, and the steps run
a build tool, a document is left alone. Otherwise the cache is switched on in all such steps, the
separate cache steps are dropped, and nothing else changes. -/
theorem visit_cached (doc : Value) : Cached doc (visit doc) := by
  by_cases h : ∀ slot steps tool, doc.lookup? ["jobs", "build", "steps"] = some slot →
      slot.items? = some steps → BuildsWith steps tool → ∀ step ∈ steps, ¬ Wants step
  · have hkept : visit doc = pure doc := by
      refine Value.overKeys_eq_pure fun slot hslot => ?_
      refine Value.overItems_eq_pure_of_items? fun steps hsteps => ?_
      exact overJobSteps_of_not_wants fun tool => h slot steps tool hslot hsteps
    rw [hkept]
    exact .kept h
  · push Not at h
    obtain ⟨slot, steps, tool, hslot, hsteps, htool, hwants⟩ := h
    obtain ⟨others, added, dropped, hchange, hswitches, hadded⟩ :=
      overJobSteps_of_wants htool hwants
    have hreplaced := Value.replacedAt_overKeys hslot (Value.overItems overJobSteps)
    have hedits := Value.edits_overKeys hslot (Value.overItems overJobSteps)
    rw [Value.overItems_eq_map hsteps, hchange] at hreplaced hedits
    rw [Editing.edits_map] at hedits
    have hvisit : visit doc = ⟨(visit doc).result, added ++ dropped⟩ :=
      Editing.eq_of_parts rfl hedits
    rw [hvisit]
    exact .switched hslot hsteps htool hswitches hadded hreplaced

/-- The step behind the one that is dropped has the position it had before. -/
example :
    let step (name text : String) : Value := .mapping [(.string name, .string text)]
    let steps : Value := .sequence [step "uses" "actions/cache@v4",
      step "uses" "actions/setup-java@v4", step "run" "mvn verify"]
    (visit (.mapping [(.string "jobs",
      .mapping [(.string "build", .mapping [(.string "steps", steps)])])])).edits =
        [⟨(stepsLocation.index 1).keys ["with", "cache"], "cache: maven"⟩,
          ⟨stepsLocation.index 0, "removed actions/cache step"⟩] := by
  decide

end WorkflowRecipes.JavaCache
