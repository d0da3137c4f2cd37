import WorkflowRecipes.Amendment.Basic
import WorkflowRecipes.Proofs.Amendment.NoticedChanges
import WorkflowRecipes.Proofs.Amendment.SettledKeys
import WorkflowRecipes.Proofs.Document.Sameness
import WorkflowRecipes.Proofs.Document.Telling

/-!
# Amendments are told

An amendment that changes a document notes an edit. There is one exception: where a call of a
workflow has an empty mapping of inputs, dropping an input drops the empty mapping as well, and
nothing is noted.

Results:
1. `Retarget.told_all`, `JavaCache.told_visit`, `RenameKey.told_visit`, …: one for each kind of
   amendment.
2. `DropInput.told_visit`, `DropInput.changes_of_hasBareCall`: dropping an input is told exactly
   where no call has an empty mapping of inputs.
3. `Amendment.told_visit`: all of them.
-/

namespace WorkflowRecipes

open Editing Value

/-! ## Steps and jobs -/

namespace Distribution

theorem told_replace (accepts : String → Bool) (new : String) (doc : Value) :
    (replace accepts new doc).Told doc := by
  refine told_overSteps (fun location step => ?_) doc
  unfold replaceIn
  split
  · refine told_overKeyOfEntries fun inputs _ => told_overKey (fun slot => ?_) _ inputs
    split
    · split
      · exact told_one _ _ _ _
      · exact told_pure _
    · exact told_pure _
  · exact told_pure _

end Distribution

namespace ToolVersion

theorem told_raise (location : Location) (least : Nat) (slot : Value) :
    (raise location least slot).Told slot := by
  unfold raise
  split
  · split
    · exact told_one _ _ _ _
    · exact told_pure _
  · exact told_pure _

theorem told_raiseAll (action key : String) (least : Nat) (doc : Value) :
    (raiseAll action key least doc).Told doc := by
  refine told_overSteps (fun location step => ?_) doc
  unfold raiseIn
  split
  · exact told_overKeyOfEntries fun inputs _ => told_overKey (told_raise _ least) _ inputs
  · exact told_pure _

end ToolVersion

namespace Retarget

theorem told_all (action target : String) (doc : Value) : (all action target doc).Told doc := by
  refine told_overSteps (fun location step => ?_) doc
  unfold Retarget.step
  split
  · split
    · exact told_one _ _ _ _
    · exact told_pure _
  · exact told_pure _

end Retarget

namespace Slack

theorem told_visit (doc : Value) : (visit doc).Told doc := by
  refine told_overSteps (fun location step => ?_) doc
  unfold Slack.step
  split
  · split
    · exact told_one _ _ _ _
    · exact told_pure _
  · exact told_pure _

end Slack

namespace JavaCache

theorem told_enableWith (tool : String) (location : Location) (inputs : Entries) :
    (enableWith tool location inputs).Told inputs := by
  unfold enableWith
  split
  · exact told_pure _
  · exact told_one _ _ _ _

/-- Inputs that are made for the cache are told by the edit of the cache. -/
theorem told_enableIn (tool : String) (location : Location) (step : Entries) :
    (enableIn tool location step).Told step := by
  unfold enableIn
  split
  · unfold Entries.overChild
    split
    · exact fun hedits => nomatch hedits
    · exact fun hedits => nomatch hedits
    · exact told_overKeyOfEntries fun value _ => told_overEntries (told_enableWith tool location) value
  · exact told_pure _

theorem told_dropCacheSteps (i : Nat) (steps : List Value) : (dropCacheSteps i steps).Told steps := by
  induction steps generalizing i with
  | nil => exact told_pure []
  | cons step rest ih =>
    rw [dropCacheSteps]
    split
    · exact told_note_bind _ _ _ _
    · exact (ih (i + 1)).map (step :: ·)

theorem told_visit (doc : Value) : (visit doc).Told doc := by
  refine told_overKeys (told_overItems fun steps => ?_) _ doc
  unfold overJobSteps
  split
  · exact told_pure _
  · next tool _ =>
    have henabled := told_overIndexed (fun i step =>
      told_overEntries (told_enableIn tool (stepsLocation.index i)) step) 0 steps
    dsimp only
    split
    · exact henabled
    · exact henabled.bind (told_dropCacheSteps 0 steps)

end JavaCache

namespace MoveToUv

theorem told_dropUpgrades (location : Location) (i : Nat) (steps : List Value) :
    (dropUpgrades location i steps).Told steps := by
  induction steps generalizing i with
  | nil => exact told_pure []
  | cons step rest ih =>
    rw [dropUpgrades]
    split
    · exact told_note_bind _ _ _ _
    · exact (ih (i + 1)).map (step :: ·)

theorem told_overStep (options : MoveToUv) (location : Location) (step : Entries) :
    (options.overStep location step).Told step := by
  unfold overStep
  split
  · exact told_note_bind _ _ _ _
  · split
    · split
      · exact told_one _ _ _ _
      · exact told_pure _
    · exact told_pure _

theorem told_overJobSteps (options : MoveToUv) (location : Location) (steps : List Value) :
    (options.overJobSteps location steps).Told steps := by
  have hmoved := told_overIndexed (fun i step =>
    told_overEntries (options.told_overStep (location.index i)) step) 0 steps
  unfold overJobSteps
  split
  · split
    · exact (told_dropUpgrades location 0 steps).bind hmoved
    · exact (told_pure steps).bind hmoved
  · exact told_pure _

theorem told_visit (options : MoveToUv) (doc : Value) : (options.visit doc).Told doc := by
  refine told_overJobs (fun location job => ?_) doc
  exact told_overKeyOfEntries fun steps _ =>
    told_overItems (options.told_overJobSteps (location.key "steps")) steps

end MoveToUv

namespace GradleWrapper

theorem told_change (call : String) (location : Location) (script : String) :
    (change call location script).Told script := by
  unfold change
  dsimp only
  split
  · exact told_pure _
  · exact told_one _ _ _ _

section Scripts

variable (call : String)

mutual

theorem told_changeAt (location : Location) : ∀ value : Value,
    (changeAt call location value).Told value
  | .mapping entries => (told_changeInEntries location entries).map Value.mapping
  | .sequence items => (told_changeInItems location 0 items).map Value.sequence
  | .tagged _ _ | .string _ | .number _ | .bool _ | .null => told_pure _

theorem told_changeInEntries (location : Location) : ∀ entries : List (Value × Value),
    (changeInEntries call location entries).Told entries
  | [] => told_pure []
  | (key, value) :: rest => by
    have hrest := told_changeInEntries location rest
    have hvalue := told_changeAt (location.key key.keyText) value
    cases value with
    | string script =>
      rw [changeInEntries]
      dsimp only
      split
      · exact ((told_change call _ script).map Value.string).entry key hrest
      · exact (told_pure _).entry key hrest
    | _ => exact hvalue.entry key hrest

theorem told_changeInItems (location : Location) (i : Nat) : ∀ items : List Value,
    (changeInItems call location i items).Told items
  | [] => told_pure []
  | item :: rest =>
    (told_changeAt (location.index i) item).cons (told_changeInItems location (i + 1) rest)

end

end Scripts

theorem told_visit (context : Context) (doc : Value) : (visit context doc).Told doc := by
  unfold visit
  split
  · refine told_overJobs (fun location job => ?_) doc
    unfold overJob
    split
    · exact told_changeInEntries _ location job
    · exact told_pure _
  · exact told_pure _

end GradleWrapper

namespace CancelEarlier

theorem told_visit (options : CancelEarlier) (doc : Value) : (options.visit doc).Told doc := by
  refine told_overKeys (told_overItems fun steps => ?_) _ doc
  unfold prepend
  split
  · exact told_pure _
  · split
    · exact told_pure _
    · exact told_one _ _ _ _

end CancelEarlier

namespace ReplaceRunners

theorem told_visit (options : ReplaceRunners) (doc : Value) : (options.visit doc).Told doc := by
  refine told_overKeys (fun slot => ?_) _ doc
  unfold replace
  split
  · exact told_pure _
  · exact told_one _ _ _ _

end ReplaceRunners

namespace InheritSecrets

theorem told_visit (doc : Value) : (visit doc).Told doc := by
  refine told_overJobs (fun location job => told_overKeyOfEntries fun secrets _ => ?_) doc
  unfold inherit
  split
  · exact told_one _ _ _ _
  · exact told_pure _

end InheritSecrets

/-! ## Triggers and updates -/

namespace Trigger

theorem told_add (event : String) (settings : Value) (doc : Value) :
    (add event settings doc).Told doc := by
  refine told_overKey (fun triggers => ?_) "on" doc
  unfold addTo
  split
  · exact told_pure _
  · split
    · exact told_pure _
    · exact told_one _ _ _ _

theorem told_removeCron (doc : Value) : (removeCron doc).Told doc := by
  refine told_overKey (told_overEntries fun events => ?_) "on" doc
  unfold dropSchedule
  split
  · exact told_one _ _ _ _
  · exact told_pure _

end Trigger

namespace Updates

theorem told_overEach {f : Location → Entries → Editing Entries}
    (h : ∀ location entries, (f location entries).Told entries) (doc : Value) :
    (overEach f doc).Told doc :=
  told_overKey (told_overItems <| told_overIndexed (fun i update =>
    told_overEntries (h (location.index i)) update) 0) "updates" doc

end Updates

namespace ChangeInterval

theorem told_set (options : ChangeInterval) (location : Location) (slot : Value) :
    (options.set location slot).Told slot := by
  unfold set
  dsimp only
  split
  · exact told_pure _
  · exact told_one _ _ _ _

theorem told_visit (options : ChangeInterval) (doc : Value) : (options.visit doc).Told doc := by
  unfold visit
  split
  · exact told_pure _
  · refine Updates.told_overEach (fun location update => ?_) doc
    split
    · exact told_overKeyOfEntries fun schedule _ =>
        told_overKey (options.told_set location) "interval" schedule
    · exact told_pure _

end ChangeInterval

namespace AddCooldown

theorem told_visit (options : AddCooldown) (doc : Value) : (options.visit doc).Told doc := by
  refine Updates.told_overEach (fun location update => ?_) doc
  unfold addTo
  split
  · exact told_one _ _ _ _
  · exact told_pure _

end AddCooldown

/-! ## Secrets and inputs -/

namespace ReplaceSecret

theorem told_visit (options : ReplaceSecret) (doc : Value) : (options.visit doc).Told doc := by
  refine told_overStrings (fun location text => ?_) doc
  unfold replaceIn
  dsimp only
  split
  · exact told_pure _
  · exact told_one _ _ _ _

end ReplaceSecret

namespace RenameKey

section Renamed

variable (options : RenameKey)

mutual

theorem told_renameAt (location : Location) : ∀ value : Value,
    (renameAt options location value).Told value
  | .mapping entries => by
    have hentries := told_renameInEntries location entries
    rw [renameAt]
    -- Whatever is renamed or united, the renaming itself is told first.
    cases options.isRenamedIn entries with
    | true => exact told_note_bind _ _ _ _
    | false => exact (told_pure ()).bind (hentries.map Value.mapping)
  | .sequence items => (told_renameInItems location 0 items).map Value.sequence
  | .tagged _ _ | .string _ | .number _ | .bool _ | .null => told_pure _

theorem told_renameInEntries (location : Location) : ∀ entries : List (Value × Value),
    (inOrder (renameInEntries options false location entries)).Told entries
  | [] => told_pure []
  | (key, value) :: rest =>
    (told_renameAt (location.key key.keyText) value).entry key (told_renameInEntries location rest)

theorem told_renameInItems (location : Location) (i : Nat) : ∀ items : List Value,
    (renameInItems options location i items).Told items
  | [] => told_pure []
  | item :: rest =>
    (told_renameAt (location.index i) item).cons (told_renameInItems location (i + 1) rest)

end

end Renamed

theorem told_visit (options : RenameKey) (doc : Value) : (options.visit doc).Told doc := by
  unfold visit
  split
  · exact told_pure _
  · exact told_renameAt options Location.root doc

end RenameKey

namespace UnusedInput

theorem told_keepUsed (used : List String) (inputs : Entries) :
    (keepUsed used inputs).Told inputs := by
  induction inputs with
  | nil => exact told_pure []
  | cons entry rest ih =>
    obtain ⟨key, value⟩ := entry
    rw [keepUsed]
    split
    · exact ih.map ((key, value) :: ·)
    · exact told_note_bind _ _ _ _

theorem told_dropUnused (used : List String) (settings : Value) :
    (dropUnused used settings).Told settings := by
  unfold dropUnused
  split
  · exact told_pure _
  · next inputs hinputs =>
    refine (told_keepUsed used inputs).bind ?_
    -- If all inputs are kept, the mapping is not dropped, and gets the inputs that it has.
    rw [Bool.and_not_self, if_neg Bool.false_ne_true]
    refine told_overEntriesOf settings fun entries hentries => ?_
    refine told_overKeyOfEntries fun value hvalue => ?_
    refine told_overEntriesOf value fun kept hkept => ?_
    rw [get?, hentries, Option.bind_some, hvalue, Option.bind_some, hkept] at hinputs
    cases hinputs
    exact told_pure _

theorem told_visit (doc : Value) : (visit doc).Told doc :=
  told_overKeys (told_dropUnused (used doc)) _ doc

end UnusedInput

namespace DropInput

/-- A call of the workflow with an empty mapping of inputs stands in a value, with no tag on the way
to it. -/
inductive HasBareCall (options : DropInput) : Value → Prop
  | call {entries : Entries} {inputs : Value} : options.isCall entries = true →
      entries.get? "with" = some inputs → inputs.entries? = some [] →
        HasBareCall options (.mapping entries)
  | entry {entries : Entries} {key value : Value} : (key, value) ∈ entries →
      HasBareCall options value → HasBareCall options (.mapping entries)
  | item {items : List Value} {item : Value} : item ∈ items →
      HasBareCall options item → HasBareCall options (.sequence items)

variable {options : DropInput}

/-- If a value holds inputs, they have something in them, but not the input that is dropped. -/
def Spares (options : DropInput) (value : Value) : Prop :=
  ∀ inputs, value.entries? = some inputs → inputs ≠ [] ∧ inputs.hasKey options.input = false

theorem stripped?_of_spares {value : Value} (h : options.Spares value) :
    options.stripped? value = some value := by
  unfold stripped?
  split
  · next inputs hinputs =>
    obtain ⟨hne, hkey⟩ := h inputs hinputs
    have hsame : overEntries (fun _ => pure inputs) value = (pure value : Editing Value) := by
      refine overEntries_eq_pure value fun entries hentries => ?_
      rw [hinputs] at hentries
      cases hentries
      rfl
    rw [Entries.erase_of_not_hasKey hkey]
    dsimp only
    rw [if_neg (by rwa [List.isEmpty_iff]), run_overEntries fun _ => inputs, hsame, result_pure]
  · rfl

/-- The inputs of a call in a document are spared if the call does not have the input and is not
bare. -/
theorem spares_of_call {entries : Entries} (hwf : (Value.mapping entries).WellFormed)
    (hcall : options.isCall entries = true) (hbare : ¬options.HasBareCall (.mapping entries))
    (hlacks : ((entries.get? "with").bind Value.entries?).any
      (fun inputs => inputs.hasKey options.input) = false) {key value : Value}
    (hmem : (key, value) ∈ entries) (hkey : key.isKey "with" = true) : options.Spares value := by
  intro inputs hinputs
  obtain rfl := isKey_iff.mp hkey
  -- Keys differ, so the entry is the one that is looked up.
  obtain ⟨found, hfound⟩ := Option.isSome_iff_exists.mp <|
    Entries.hasKey_eq entries "with" ▸ Entries.hasKey_iff_exists_mem.mpr ⟨value, hmem⟩
  have hunique := eq_of_same_key hwf hmem (Entries.mem_of_get?_eq_some hfound) (same_refl _)
  cases hunique
  rw [hfound, Option.bind_some, hinputs, Option.any_some] at hlacks
  refine ⟨?_, hlacks⟩
  rintro rfl
  exact hbare (.call hcall hfound hinputs)

section Dropped

variable (options)

/-- Entries without the hidden key, if there is one. -/
def Lacks (hidden : Option String) (entries : Entries) : Prop :=
  ∀ name, hidden = some name → entries.hasKey name = false

theorem without_of_lacks {hidden : Option String} {entries : Entries} (h : Lacks hidden entries) :
    without hidden entries = entries := by
  cases hidden with
  | none => rfl
  | some name => exact Entries.erase_of_not_hasKey (h name rfl)

/-- What becomes of a value in a mapping is told if it is by itself. -/
theorem told_overValue {inputs : Bool} {location : Location} {value : Value}
    (hspares : inputs = true → options.Spares value)
    (h : ∀ hidden, (∀ entries, value = .mapping entries → Lacks hidden entries) →
      (dropAt options hidden location value).Told value) :
    (options.overValue inputs location value).Told value := by
  have hlacks : ∀ entries, value = .mapping entries →
      Lacks (if inputs then some options.input else none) entries := by
    rintro entries rfl name hname
    cases inputs with
    | false => cases hname
    | true =>
      cases hname
      exact (hspares rfl entries rfl).2
  cases value with
  | tagged tag inner =>
    cases inputs with
    | false => exact told_pure _
    | true =>
      rw [overValue, if_pos rfl, stripped?_of_spares (hspares rfl)]
      exact told_pure _
  | _ => exact h _ hlacks

mutual

theorem told_dropAt (hidden : Option String) (location : Location) : ∀ value : Value,
    value.WellFormed → ¬options.HasBareCall value →
      (∀ entries, value = .mapping entries → Lacks hidden entries) →
        (dropAt options hidden location value).Told value
  | .mapping entries, hwf, hbare, hlacks => by
    have hentries := fun call => told_dropInEntries hidden call location entries hwf.2
      (fun e he h => hbare (.entry he h)) (hlacks entries rfl)
    rw [dropAt, without_of_lacks (hlacks entries rfl)]
    cases hcall : options.isCall entries with
    | false => exact (told_pure ()).bind ((hentries false nofun).map Value.mapping)
    | true =>
      rw [if_pos rfl, noteLoss]
      split
      · exact told_note_bind _ _ _ _
      · next hnone =>
        refine (told_pure ()).bind ((hentries true fun _ e he hkey => ?_).map Value.mapping)
        exact spares_of_call hwf hcall hbare (Bool.not_eq_true _ ▸ hnone) he hkey
  | .sequence items, hwf, hbare, _ =>
    (told_dropInItems location 0 items hwf fun item hitem h => hbare (.item hitem h)).map
      Value.sequence
  | .tagged _ _, _, _, _ | .string _, _, _, _ | .number _, _, _, _ | .bool _, _, _, _
  | .null, _, _, _ => told_pure _

theorem told_dropInEntries (hidden : Option String) (call : Bool) (location : Location) :
    ∀ entries : List (Value × Value), WellFormedEntries entries →
      (∀ e ∈ entries, ¬options.HasBareCall e.2) → Lacks hidden entries →
        (call = true → ∀ e ∈ entries, e.1.isKey "with" = true → options.Spares e.2) →
          (dropInEntries options hidden call location entries).Told entries
  | [], _, _, _, _ => told_pure []
  | (key, value) :: rest, hwf, hbare, hlacks, hspares => by
    have hkeys : ∀ name, hidden = some name →
        key.isKey name = false ∧ Entries.hasKey rest name = false := by
      intro name hname
      have hkeys := hlacks name hname
      rwa [Entries.hasKey, List.any_cons, Bool.or_eq_false_iff] at hkeys
    have hrest := told_dropInEntries hidden call location rest hwf.2.2
      (fun e he => hbare e (List.mem_cons_of_mem _ he)) (fun name hname => (hkeys name hname).2)
      fun hcall e he => hspares hcall e (List.mem_cons_of_mem _ he)
    have hvalue := fun hidden => told_dropAt hidden (location.key key.keyText) value hwf.2.1
      (hbare (key, value) List.mem_cons_self)
    have hinputs : (call && key.isKey "with") = true → options.Spares value := by
      intro h
      rw [Bool.and_eq_true] at h
      exact hspares h.1 (key, value) List.mem_cons_self h.2
    have hkept : options.drops hidden call (key, value) = false := by
      rw [drops, Bool.or_eq_false_iff]
      constructor
      · cases hidden with
        | none => rfl
        | some name => exact (hkeys name rfl).1
      · cases h : call && key.isKey "with" with
        | false => rfl
        | true =>
          rw [stripped?_of_spares (hinputs h)]
          rfl
    rw [dropInEntries_cons hkept]
    exact (told_overValue options hinputs hvalue).entry key hrest

theorem told_dropInItems (location : Location) (i : Nat) : ∀ items : List Value,
    WellFormedItems items → (∀ item ∈ items, ¬options.HasBareCall item) →
      (dropInItems options location i items).Told items
  | [], _, _ => told_pure []
  | item :: rest, hwf, hbare =>
    (told_dropAt none (location.index i) item hwf.1 (hbare item List.mem_cons_self)
      fun _ _ _ hname => (Option.some_ne_none _ hname.symm).elim).cons
      (told_dropInItems location (i + 1) rest hwf.2
        fun other hother => hbare other (List.mem_cons_of_mem _ hother))

end

/-! ### Calls without inputs change -/

/-- If a mapping is left as it was, no entry is dropped, and each value is as it was. -/
theorem forall_of_dropInEntries_eq {hidden : Option String} {call : Bool} {location : Location}
    {entries : Entries} (h : (dropInEntries options hidden call location entries).result = entries) :
    ∀ e ∈ entries, options.drops hidden call e = false ∧
      (options.overValue (call && e.1.isKey "with") (location.key e.1.keyText) e.2).result = e.2 := by
  induction entries with
  | nil => exact fun e he => nomatch he
  | cons entry rest ih =>
    cases hdrops : options.drops hidden call entry with
    | true =>
      rw [dropInEntries_of_drops hdrops] at h
      have hle := options.length_dropInEntries_le hidden call location rest
      rw [h, List.length_cons] at hle
      omega
    | false =>
      rw [dropInEntries_of_not_drops hdrops, List.cons.injEq] at h
      obtain ⟨hentry, hrest⟩ := h
      intro e he
      rcases List.mem_cons.mp he with rfl | he
      · exact ⟨hdrops, congrArg Prod.snd hentry⟩
      · exact ih hrest e he

theorem forall_of_dropInItems_eq {location : Location} {i : Nat} {items : List Value}
    (h : (dropInItems options location i items).result = items) :
    ∀ item ∈ items, ∃ place, (dropAt options none place item).result = item := by
  induction items generalizing i with
  | nil => exact fun item hitem => nomatch hitem
  | cons first rest ih =>
    have hcons : (dropAt options none (location.index i) first).result = first ∧
        (dropInItems options location (i + 1) rest).result = rest := List.cons.inj h
    intro item hitem
    rcases List.mem_cons.mp hitem with rfl | hitem
    · exact ⟨location.index i, hcons.1⟩
    · exact ih hcons.2 item hitem

/-- A value with such a call is a mapping or a sequence, and is gone into. -/
theorem overValue_of_hasBareCall {value : Value} (h : options.HasBareCall value) (inputs : Bool)
    (location : Location) : ∃ hidden,
      options.overValue inputs location value = dropAt options hidden location value :=
  ⟨if inputs then some options.input else none, by cases h <;> rfl⟩

theorem changes_of_hasBareCall {value : Value} (h : options.HasBareCall value)
    (hidden : Option String) (location : Location) :
    (dropAt options hidden location value).result ≠ value := by
  induction h generalizing hidden location with
  | @call entries inputs hcall hinputs hempty =>
    intro hsame
    have hkept := forall_of_dropInEntries_eq options (Value.mapping.inj hsame)
    -- The mapping has no hidden key, so it is the call that it is without one.
    have hlacks : Lacks hidden entries := by
      rintro name rfl
      refine List.any_eq_false.mpr fun e he => ?_
      have hdrops := (hkept e he).1
      rw [drops, Bool.or_eq_false_iff] at hdrops
      exact ne_true_of_eq_false hdrops.1
    have hdrops := (hkept _ (Entries.mem_of_get?_eq_some hinputs)).1
    have hnone : options.stripped? inputs = none := by
      unfold stripped?
      rw [hempty]
      rfl
    rw [without_of_lacks hlacks, hcall, drops, hnone, isKey_string] at hdrops
    cases (Bool.or_eq_false_iff.mp hdrops).2
  | @entry entries key value hmem hbare ih =>
    intro hsame
    have hvalue := (forall_of_dropInEntries_eq options (Value.mapping.inj hsame) _ hmem).2
    obtain ⟨below, hbelow⟩ := overValue_of_hasBareCall options hbare _ _
    exact ih below _ (hbelow ▸ hvalue)
  | @item items item hmem hbare ih =>
    intro hsame
    obtain ⟨place, hitem⟩ := forall_of_dropInItems_eq options (Value.sequence.inj hsame) item hmem
    exact ih none place hitem

end Dropped

theorem told_visit (options : DropInput) {doc : Value} (hwf : doc.WellFormed)
    (h : ¬options.HasBareCall doc) : (options.visit doc).Told doc :=
  told_dropAt options none Location.root doc hwf h fun _ _ _ hname =>
    (Option.some_ne_none _ hname.symm).elim

end DropInput

/-! ## All amendments -/

/-- Where an amendment meets a call of a workflow whose mapping of inputs is empty already: it drops
the mapping. -/
def Amendment.MeetsBareCall (amendment : Amendment) (doc : Value) : Prop :=
  ∃ options, amendment = .dropInput options ∧ options.HasBareCall doc

/-- Whatever an amendment does to a document is told, unless it drops empty inputs. -/
theorem Amendment.told_visit (amendment : Amendment) (context : Context) {doc : Value}
    (hwf : doc.WellFormed) (h : ¬amendment.MeetsBareCall doc) :
    (amendment.visit context doc).Told doc := by
  cases amendment with
  | adoptToTemurin => exact Distribution.told_replace _ _ doc
  | openJ9ToSemeru => exact Distribution.told_replace _ _ doc
  | preferTemurin => exact Distribution.told_replace _ _ doc
  | replaceDistribution options => exact Distribution.told_replace _ _ doc
  | raiseJava least => exact ToolVersion.told_raiseAll _ _ least doc
  | cacheJava => exact JavaCache.told_visit doc
  | raiseNode least => exact ToolVersion.told_raiseAll _ _ least doc
  | addCron options => exact Trigger.told_add _ _ doc
  | removeCron => exact Trigger.told_removeCron doc
  | addManual => exact Trigger.told_add _ _ doc
  | cancelEarlier options => exact options.told_visit doc
  | changeInterval options => exact options.told_visit doc
  | addCooldown options => exact options.told_visit doc
  | replaceRunners options => exact options.told_visit doc
  | changeAction options => exact Retarget.told_all _ _ doc
  | changeActionVersion options => exact Retarget.told_all _ _ doc
  | replaceSecret options => exact options.told_visit doc
  | renameKey options => exact options.told_visit doc
  | inheritSecrets => exact InheritSecrets.told_visit doc
  | dropInput options => exact options.told_visit hwf fun hbare => h ⟨options, rfl, hbare⟩
  | dropUnusedInputs => exact UnusedInput.told_visit doc
  | useGradleWrapper => exact GradleWrapper.told_visit context doc
  | upgradeSlack => exact Slack.told_visit doc
  | moveToUv options => exact options.told_visit doc

end WorkflowRecipes
