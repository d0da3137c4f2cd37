import WorkflowRecipes.Amendment.Basic
import WorkflowRecipes.Proofs.Amendment.SettledKeys
import WorkflowRecipes.Proofs.Amendment.SettledSteps
import WorkflowRecipes.Proofs.Document.Noticing

/-!
# Amendments are noticed

Whatever an amendment changes, the document is no longer the same: a text or number is another one,
a mapping or sequence has more or fewer entries, or a key is new.

Results:
1. `Retarget.noticed_all`, `Slack.noticed_visit`, `JavaCache.noticed_visit`, …: one for each kind of
   amendment.
2. `Amendment.noticed_visit`: all of them.
-/

namespace WorkflowRecipes

open Value

/-! ## Steps and jobs -/

namespace Distribution

theorem noticed_replace (accepts : String → Bool) (new : String) (doc : Value) :
    Noticed (replace accepts new doc).result doc := by
  refine noticed_overSteps (fun location step => ?_) doc
  unfold replaceIn
  split
  · refine noticed_overKeyOfEntries fun inputs _ => noticed_overKey (fun slot => ?_) _ inputs
    split
    · split
      · exact noticed_replacement slot new
      · exact .refl _
    · exact .refl _
  · exact .refl _

end Distribution

namespace ToolVersion

theorem noticed_raise (location : Location) (least : Nat) (slot : Value) :
    Noticed (raise location least slot).result slot := by
  unfold raise
  split
  · split
    · exact noticed_replacement slot _
    · exact .refl _
  · exact .refl _

theorem noticed_raiseAll (action key : String) (least : Nat) (doc : Value) :
    Noticed (raiseAll action key least doc).result doc := by
  refine noticed_overSteps (fun location step => ?_) doc
  unfold raiseIn
  split
  · exact noticed_overKeyOfEntries fun inputs _ => noticed_overKey (noticed_raise _ least) _ inputs
  · exact .refl _

end ToolVersion

namespace Retarget

theorem noticed_all (action target : String) (doc : Value) :
    Noticed (all action target doc).result doc := by
  refine noticed_overSteps (fun location step => ?_) doc
  unfold Retarget.step
  split
  · split
    · exact noticed_set fun old _ => noticed_string target old
    · exact .refl _
  · exact .refl _

end Retarget

namespace Slack

theorem noticed_visit (doc : Value) : Noticed (visit doc).result doc := by
  refine noticed_overSteps (fun location step => ?_) doc
  unfold Slack.step
  split
  · next hsource =>
    split
    · next message _ =>
      -- The step used a ref of another start.
      refine noticed_of_text? (Entries.text?_set_self _ "uses" target) fun huses => ?_
      rw [Entries.uses?, huses, Option.any_some] at hsource
      rw [not_startsWith_target] at hsource
      cases hsource
    · exact .refl _
  · exact .refl _

end Slack

namespace JavaCache

theorem noticed_enableWith (tool : String) (location : Location) :
    NoticesEntries (enableWith tool location) := by
  intro inputs
  unfold enableWith
  split
  · exact .refl _
  · next h =>
    exact noticed_of_new_key (Bool.not_eq_true _ ▸ h) (Entries.hasKey_set_self _ _ _)

theorem noticed_enableIn (tool : String) (location : Location) :
    NoticesEntries (enableIn tool location) := by
  intro step
  unfold enableIn
  split
  · unfold Entries.overChild
    split
    · next hget => exact noticed_set fun old hold => by rw [hget] at hold; cases hold
    · next hget =>
      refine noticed_set fun old hold => ?_
      rw [hget] at hold
      cases hold
      exact fun _ hsame => by cases hsame
    · exact noticed_overKeyOfEntries fun value _ =>
        noticed_overEntries (noticed_enableWith tool location) value
  · exact .refl _

theorem noticed_visit (doc : Value) : Noticed (visit doc).result doc := by
  refine noticed_overKeys (noticed_overItems fun steps => ?_) _ doc
  unfold overJobSteps
  split
  · exact .refl _
  · next tool _ =>
    have henabled := forall₂_overIndexed (fun i step =>
      noticed_overEntries (noticed_enableIn tool (stepsLocation.index i)) step) 0 steps
    dsimp only
    split
    · exact noticed_sequence henabled
    · rw [Editing.result_bind, result_dropCacheSteps]
      exact noticed_filter henabled _

end JavaCache

namespace MoveToUv

theorem noticed_overStep (options : MoveToUv) (location : Location) :
    NoticesEntries (options.overStep location) := by
  intro step
  cases hpython : step.usesAction setupPython with
  | true =>
    -- The inputs may be what they were, but the action is another one.
    refine noticed_of_text? (options.uses?_overStep location hpython) fun huses => ?_
    rw [usesAction_of_uses? huses] at hpython
    cases hpython
  | false =>
    rw [overStep, hpython, if_neg Bool.false_ne_true]
    split
    · split
      · exact noticed_set fun old _ => noticed_string _ old
      · exact .refl _
    · exact .refl _

theorem noticed_overJobSteps (options : MoveToUv) (location : Location) (steps : List Value) :
    Noticed (.sequence (options.overJobSteps location steps).result) (.sequence steps) := by
  cases hany : steps.any setsUpPython with
  | false =>
    rw [overJobSteps, hany]
    exact .refl _
  | true =>
    rw [result_overJobSteps options location hany]
    have hmoved := forall₂_overIndexed (fun i step =>
      noticed_overEntries (options.noticed_overStep (location.index i)) step) 0
    split
    -- A step that was dropped is noticed by the length alone.
    · by_cases hlength : (steps.filter fun step => !isUpgrade step).length = steps.length
      · rw [List.filter_eq_self.mpr (List.length_filter_eq_length_iff.mp hlength)]
        exact noticed_sequence (hmoved steps)
      · refine noticed_of_lengths_ne ?_
        rw [(hmoved _).length_eq]
        exact hlength
    · exact noticed_sequence (hmoved steps)

theorem noticed_visit (options : MoveToUv) (doc : Value) :
    Noticed (options.visit doc).result doc := by
  refine noticed_overJobs (fun location job => ?_) doc
  exact noticed_overKeyOfEntries fun steps _ =>
    noticed_overItems (options.noticed_overJobSteps (location.key "steps")) steps

end MoveToUv

namespace GradleWrapper

section Scripts

variable (call : String)

mutual

theorem noticed_changeAt (location : Location) : ∀ value : Value,
    Noticed (changeAt call location value).result value
  | .mapping entries => noticed_mapping (forall₂_changeInEntries location entries)
  | .sequence items => noticed_sequence (forall₂_changeInItems location 0 items)
  | .tagged _ _ | .string _ | .number _ | .bool _ | .null => .refl _

theorem forall₂_changeInEntries (location : Location) : ∀ entries : List (Value × Value),
    List.Forall₂ (fun e' e => e'.1 = e.1 ∧ Noticed e'.2 e.2)
      (changeInEntries call location entries).result entries
  | [] => .nil
  | (key, value) :: rest => by
    have hrest := forall₂_changeInEntries location rest
    have hvalue := noticed_changeAt (location.key key.keyText) value
    by_cases hstring : ∃ script, value = .string script
    · obtain ⟨script, rfl⟩ := hstring
      rw [changeInEntries_cons_string]
      exact .cons ⟨rfl, noticed_string _ _⟩ hrest
    · rw [changeInEntries_cons_other fun script heq => hstring ⟨script, heq⟩]
      exact .cons ⟨rfl, hvalue⟩ hrest

theorem forall₂_changeInItems (location : Location) (i : Nat) : ∀ items : List Value,
    List.Forall₂ Noticed (changeInItems call location i items).result items
  | [] => .nil
  | item :: rest => .cons (noticed_changeAt (location.index i) item)
      (forall₂_changeInItems location (i + 1) rest)

end

end Scripts

theorem noticed_visit (context : Context) (doc : Value) :
    Noticed (visit context doc).result doc := by
  unfold visit
  split
  · refine noticed_overJobs (fun location job => ?_) doc
    unfold overJob
    split
    · exact noticed_mapping (forall₂_changeInEntries _ location job)
    · exact .refl _
  · exact .refl _

end GradleWrapper

namespace CancelEarlier

theorem noticed_visit (options : CancelEarlier) (doc : Value) :
    Noticed (options.visit doc).result doc := by
  refine noticed_overKeys (noticed_overItems fun steps => ?_) _ doc
  unfold prepend
  split
  · exact .refl _
  · split
    · exact .refl _
    · exact noticed_of_lengths_ne (Nat.succ_ne_self steps.length)

end CancelEarlier

namespace ReplaceRunners

theorem noticed_visit (options : ReplaceRunners) (doc : Value) :
    Noticed (options.visit doc).result doc := by
  refine noticed_overKeys (fun slot => ?_) _ doc
  unfold replace
  split
  · exact .refl _
  · exact noticed_strings options.runners slot

end ReplaceRunners

namespace InheritSecrets

theorem noticed_inherit (location : Location) (secrets : Value) :
    Noticed (inherit location secrets).result secrets := by
  unfold inherit
  split
  · exact noticed_string _ _
  · exact .refl _

theorem noticed_visit (doc : Value) : Noticed (visit doc).result doc :=
  noticed_overJobs (f := fun location => Entries.overKey "secrets" (inherit location))
    (fun location _ => noticed_overKeyOfEntries fun secrets _ =>
      noticed_inherit location secrets) doc

end InheritSecrets

/-! ## Triggers and updates -/

namespace Trigger

theorem noticed_add (event : String) (settings : Value) (doc : Value) :
    Noticed (add event settings doc).result doc := by
  refine noticed_overKey (fun triggers => ?_) "on" doc
  unfold addTo
  split
  · exact .refl _
  · next hevent =>
    cases triggers with
    | mapping entries =>
      exact noticed_of_new_key (Bool.not_eq_true _ ▸ hevent) (Entries.hasKey_set_self _ _ _)
    | string s => exact fun _ hsame => by cases hsame
    | sequence items =>
      split
      · exact .refl _
      · exact fun _ hsame => by cases hsame
    | _ => exact .refl _

theorem noticed_removeCron (doc : Value) : Noticed (removeCron doc).result doc := by
  refine noticed_overKey (noticed_overEntries fun events => ?_) "on" doc
  unfold dropSchedule
  split
  · exact noticed_erase events "schedule"
  · exact .refl _

end Trigger

namespace Updates

theorem noticed_overEach {f : Location → Entries → Editing Entries}
    (h : ∀ location, NoticesEntries (f location)) (doc : Value) :
    Noticed (overEach f doc).result doc :=
  noticed_overKey (noticed_overItems fun updates => noticed_sequence <|
    forall₂_overIndexed (fun i update => noticed_overEntries (h (location.index i)) update) 0
      updates) "updates" doc

end Updates

namespace ChangeInterval

theorem noticed_set (options : ChangeInterval) (location : Location) (slot : Value) :
    Noticed (options.set location slot).result slot := by
  unfold set
  dsimp only
  split
  · exact .refl _
  · exact noticed_string _ _

theorem noticed_visit (options : ChangeInterval) (doc : Value) :
    Noticed (options.visit doc).result doc := by
  unfold visit
  split
  · exact .refl _
  · refine Updates.noticed_overEach (fun location update => ?_) doc
    split
    · exact noticed_overKeyOfEntries fun schedule _ =>
        noticed_overKey (options.noticed_set location) "interval" schedule
    · exact .refl _

end ChangeInterval

namespace AddCooldown

theorem noticed_visit (options : AddCooldown) (doc : Value) :
    Noticed (options.visit doc).result doc := by
  refine Updates.noticed_overEach (fun location update => ?_) doc
  unfold addTo
  split
  · next h =>
    rw [Bool.and_eq_true, Bool.not_eq_true'] at h
    exact noticed_of_new_key h.2 (Entries.hasKey_set_self _ _ _)
  · exact .refl _

end AddCooldown

/-! ## Keys and inputs -/

namespace RenameKey

section Renamed

variable (options : RenameKey)

mutual

theorem noticed_renameAt (location : Location) : ∀ value : Value,
    Noticed (renameAt options location value).result value
  | .mapping entries => by
    have hentries := forall₂_renameInEntries location entries
    rw [renameAt]
    cases hrenamed : options.isRenamedIn entries with
    | true =>
      -- The new key was missing before, so the inner changes do not matter.
      rw [isRenamedIn, Bool.and_eq_true, Bool.not_eq_true'] at hrenamed
      exact noticed_of_new_key hrenamed.2 (hasKey_inOrder_unite options hrenamed.1 location)
    | false => exact noticed_mapping hentries
  | .sequence items => noticed_sequence (forall₂_renameInItems location 0 items)
  | .tagged _ _ | .string _ | .number _ | .bool _ | .null => .refl _

theorem forall₂_renameInEntries (location : Location) : ∀ entries : List (Value × Value),
    List.Forall₂ (fun e' e => e'.1 = e.1 ∧ Noticed e'.2 e.2)
      (inOrder (renameInEntries options false location entries)).result entries
  | [] => .nil
  | (key, value) :: rest => .cons ⟨rfl, noticed_renameAt (location.key key.keyText) value⟩
      (forall₂_renameInEntries location rest)

theorem forall₂_renameInItems (location : Location) (i : Nat) : ∀ items : List Value,
    List.Forall₂ Noticed (renameInItems options location i items).result items
  | [] => .nil
  | item :: rest => .cons (noticed_renameAt (location.index i) item)
      (forall₂_renameInItems location (i + 1) rest)

end

end Renamed

theorem noticed_visit (options : RenameKey) (doc : Value) :
    Noticed (options.visit doc).result doc := by
  unfold visit
  split
  · exact .refl _
  · exact noticed_renameAt options Location.root doc

end RenameKey

namespace DropInput

section Dropped

variable (options : DropInput)

theorem noticed_stripped {value left : Value} (h : options.stripped? value = some left) :
    Noticed left value := by
  unfold stripped? at h
  split at h
  · next inputs hinputs =>
    dsimp only at h
    split at h
    · cases h
    · cases h
      rw [run_overEntries]
      refine noticed_overEntriesOf value fun entries hentries => ?_
      rw [hinputs] at hentries
      cases hentries
      exact noticed_erase _ _
  · cases h
    exact .refl _

/-- What becomes of a value in a mapping is noticed if it is noticed by itself. -/
theorem noticed_overValue (inputs : Bool) {location : Location} {value : Value}
    (h : ∀ hidden, Noticed (dropAt options hidden location value).result value) :
    Noticed (options.overValue inputs location value).result value := by
  cases value with
  | tagged tag inner =>
    cases inputs with
    | false => exact .refl _
    | true =>
      rw [overValue, if_pos rfl]
      cases hstripped : options.stripped? (.tagged tag inner) with
      | none => exact noticed_null _
      | some left => exact options.noticed_stripped hstripped
  | _ => exact h (if inputs then some options.input else none)

theorem length_dropInEntries_le (hidden : Option String) (call : Bool) (location : Location)
    (entries : Entries) :
    (dropInEntries options hidden call location entries).result.length ≤ entries.length := by
  rw [← List.length_map (f := Prod.fst), keys_dropInEntries, List.length_map]
  exact List.length_filter_le _ _

mutual

theorem noticed_dropAt (hidden : Option String) (location : Location) : ∀ value : Value,
    Noticed (dropAt options hidden location value).result value
  | .mapping entries => by
    have hcases := dropInEntries_cases hidden (options.isCall (without hidden entries)) location
      entries
    rcases hcases with hshorter | hvalues
    · exact noticed_of_length_ne hshorter.ne
    · exact noticed_mapping hvalues
  | .sequence items => noticed_sequence (forall₂_dropInItems location 0 items)
  | .tagged _ _ | .string _ | .number _ | .bool _ | .null => .refl _

/-- Either an entry is dropped, or all keys stay. -/
theorem dropInEntries_cases (hidden : Option String) (call : Bool) (location : Location) :
    ∀ entries : List (Value × Value),
      (dropInEntries options hidden call location entries).result.length < entries.length ∨
      List.Forall₂ (fun e' e => e'.1 = e.1 ∧ Noticed e'.2 e.2)
        (dropInEntries options hidden call location entries).result entries
  | [] => .inr .nil
  | (key, value) :: rest => by
    have hrest := dropInEntries_cases hidden call location rest
    have hvalue := fun hidden => noticed_dropAt hidden (location.key key.keyText) value
    cases h : options.drops hidden call (key, value) with
    | true =>
      -- One entry is gone, and none can come instead.
      rw [dropInEntries_of_drops h]
      exact .inl (Nat.lt_succ_of_le (options.length_dropInEntries_le hidden call location rest))
    | false =>
      rw [dropInEntries_of_not_drops h]
      rcases hrest with hshorter | hvalues
      · exact .inl (Nat.succ_lt_succ hshorter)
      · exact .inr (.cons ⟨rfl, noticed_overValue options _ hvalue⟩ hvalues)

theorem forall₂_dropInItems (location : Location) (i : Nat) : ∀ items : List Value,
    List.Forall₂ Noticed (dropInItems options location i items).result items
  | [] => .nil
  | item :: rest => .cons (noticed_dropAt none (location.index i) item)
      (forall₂_dropInItems location (i + 1) rest)

end

end Dropped

theorem noticed_visit (options : DropInput) (doc : Value) :
    Noticed (options.visit doc).result doc :=
  noticed_dropAt options none Location.root doc

end DropInput

namespace UnusedInput

theorem result_keepUsed (used : List String) (inputs : Entries) :
    (keepUsed used inputs).result = inputs.filter fun e => used.contains e.1.keyText := by
  induction inputs with
  | nil => rfl
  | cons entry rest ih =>
    obtain ⟨key, value⟩ := entry
    rw [keepUsed, List.filter_cons]
    split
    · exact congrArg ((key, value) :: ·) ih
    · exact ih

theorem noticed_withoutInputs (settings : Value) : Noticed (withoutInputs settings) settings := by
  unfold withoutInputs
  split
  · split
    · exact noticed_null _
    · rw [run_overEntries fun e => e.erase "inputs"]
      exact noticed_overEntries (fun entries => noticed_erase entries "inputs") settings
  · exact .refl _

theorem noticed_dropUnused (used : List String) (settings : Value) :
    Noticed (dropUnused used settings).result settings := by
  unfold dropUnused
  split
  · exact .refl _
  · next inputs hinputs =>
    rw [Editing.result_bind]
    split
    · exact noticed_withoutInputs settings
    · refine noticed_overEntriesOf settings fun entries hentries => ?_
      refine noticed_overKeyOfEntries fun value hvalue => ?_
      refine noticed_overEntriesOf value fun kept hkept => ?_
      rw [get?, hentries, Option.bind_some, hvalue, Option.bind_some, hkept] at hinputs
      cases hinputs
      rw [result_keepUsed]
      exact noticed_filter_entries _ _

theorem noticed_visit (doc : Value) : Noticed (visit doc).result doc :=
  noticed_overKeys (noticed_dropUnused (used doc)) _ doc

end UnusedInput

/-! ## All amendments -/

/-- Whatever an amendment does to a document is noticed. -/
theorem Amendment.noticed_visit (amendment : Amendment) (context : Context) (doc : Value) :
    Noticed (amendment.visit context doc).result doc := by
  cases amendment with
  | adoptToTemurin => exact Distribution.noticed_replace _ _ doc
  | openJ9ToSemeru => exact Distribution.noticed_replace _ _ doc
  | preferTemurin => exact Distribution.noticed_replace _ _ doc
  | replaceDistribution options => exact Distribution.noticed_replace _ _ doc
  | raiseJava least => exact ToolVersion.noticed_raiseAll _ _ least doc
  | cacheJava => exact JavaCache.noticed_visit doc
  | raiseNode least => exact ToolVersion.noticed_raiseAll _ _ least doc
  | addCron options => exact Trigger.noticed_add _ _ doc
  | removeCron => exact Trigger.noticed_removeCron doc
  | addManual => exact Trigger.noticed_add _ _ doc
  | cancelEarlier options => exact options.noticed_visit doc
  | changeInterval options => exact options.noticed_visit doc
  | addCooldown options => exact options.noticed_visit doc
  | replaceRunners options => exact options.noticed_visit doc
  | changeAction options => exact Retarget.noticed_all _ _ doc
  | changeActionVersion options => exact Retarget.noticed_all _ _ doc
  | replaceSecret options => exact noticed_overStrings options.replaceIn doc
  | renameKey options => exact options.noticed_visit doc
  | inheritSecrets => exact InheritSecrets.noticed_visit doc
  | dropInput options => exact options.noticed_visit doc
  | dropUnusedInputs => exact UnusedInput.noticed_visit doc
  | useGradleWrapper => exact GradleWrapper.noticed_visit context doc
  | upgradeSlack => exact Slack.noticed_visit doc
  | moveToUv options => exact options.noticed_visit doc

end WorkflowRecipes
