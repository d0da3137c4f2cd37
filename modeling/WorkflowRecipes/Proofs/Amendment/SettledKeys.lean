import WorkflowRecipes.Amendment.Dependabot
import WorkflowRecipes.Amendment.Input
import WorkflowRecipes.Amendment.Job
import WorkflowRecipes.Amendment.Secret
import WorkflowRecipes.Amendment.Trigger
import WorkflowRecipes.Proofs.Document.Sameness
import WorkflowRecipes.Proofs.Document.Settling

/-!
# Amendments of keys settle

Amendments that add, drop or rename keys, or replace the value under one, find the document as they
want it the second time.

Results:
1. `Trigger.settles_add`, `CancelEarlier.settles_visit`, `ReplaceRunners.settles_visit`,
   `ChangeInterval.settles_visit`, `AddCooldown.settles_visit`, `InheritSecrets.settles_visit`:
   changes in one place.
2. `RenameKey.settles_visit`: a mapping that was renamed has the new key.
3. `DropInput.settles_visit`: a call that lost the input stays a call.
-/

namespace WorkflowRecipes

open Editing

namespace Trigger

theorem settles_addTo (event : String) (settings : Value) : Settles (addTo event settings) := by
  refine settles_of_fixed (fun triggers => hasEvent event triggers = true) ?_ ?_
  · intro triggers htriggers
    rw [addTo, if_pos htriggers]
    rfl
  · intro triggers
    unfold addTo
    split
    · exact .inr rfl
    · split
      · exact .inr rfl
      · exact .inl (Entries.hasKey_set_self _ _ _)

theorem settles_add (event : String) (settings : Value) : Settles (add event settings) :=
  Value.settles_overKey (settles_addTo event settings) "on"

theorem settles_dropSchedule : Settles dropSchedule := by
  refine settles_of_fixed (fun events => events.hasKey "schedule" = false) ?_ ?_
  · intro events hevents
    rw [dropSchedule, hevents]
    rfl
  · intro events
    unfold dropSchedule
    split
    · exact .inl (Entries.hasKey_erase_self _ _)
    · exact .inr rfl

theorem settles_removeCron : Settles removeCron :=
  Value.settles_overKey (Value.settles_overEntries settles_dropSchedule) "on"

end Trigger

namespace CancelEarlier

/-- The step that is put in front is recognized. -/
theorem uses?_step (options : CancelEarlier) :
    options.step.entries?.bind Entries.uses? = some action := by
  rfl

theorem settles_prepend (options : CancelEarlier) : Settles options.prepend := by
  refine settles_of_fixed (fun steps => ∃ uses, (steps.head?.bind Value.entries?).bind
    Entries.uses? = some uses ∧ holds uses "cancel-workflow-action" = true) ?_ ?_
  · rintro steps ⟨uses, huses, hholds⟩
    simp only [prepend, huses, if_pos hholds, result_pure]
  · intro steps
    unfold prepend
    split
    · exact .inr rfl
    · split
      · exact .inr rfl
      · exact .inl ⟨action, options.uses?_step, by decide⟩

theorem settles_visit (options : CancelEarlier) : Settles options.visit :=
  Value.settles_overKeys (Value.settles_overItems options.settles_prepend) _

end CancelEarlier

namespace ReplaceRunners

theorem settles_replace (options : ReplaceRunners) : Settles options.replace := by
  refine settles_of_fixed (fun slot => slot.same options.wanted = true) ?_ ?_
  · intro slot hslot
    rw [replace, if_pos hslot]
    rfl
  · intro slot
    unfold replace
    split
    · exact .inr rfl
    · exact .inl (Value.same_refl options.wanted)

theorem settles_visit (options : ReplaceRunners) : Settles options.visit :=
  Value.settles_overKeys options.settles_replace _

end ReplaceRunners

namespace Updates

theorem settles_overEach {f : Location → Entries → Editing Entries}
    (h : ∀ location, Settles (f location)) : Settles (overEach f) :=
  Value.settles_overKey (Value.settles_overItems <| Value.settles_overIndexed
    (fun _ => Value.settles_overEntries (h _)) 0) "updates"

end Updates

namespace ChangeInterval

theorem settles_set (options : ChangeInterval) (location : Location) :
    Settles (options.set location) := by
  refine settles_of_fixed (fun slot => slot.scalarText?.getD "" = options.interval) ?_ ?_
  · intro slot hslot
    simp only [set, hslot, if_true, result_pure]
  · intro slot
    unfold set
    dsimp only
    split
    · exact .inr rfl
    · exact .inl rfl

theorem settles_visit (options : ChangeInterval) : Settles options.visit := by
  unfold visit
  cases options.pattern? with
  | none => exact settles_pure
  | some pattern =>
    refine Updates.settles_overEach fun location => ?_
    refine Settles.guard (Entries.settles_overKey (Value.settles_overKey
      (options.settles_set location) "interval") "schedule") fun update => ?_
    rw [fits, fits, Entries.get?_overKey_of_ne (by decide)]

end ChangeInterval

namespace AddCooldown

theorem settles_addTo (options : AddCooldown) (location : Location) :
    Settles (options.addTo location) := by
  refine settles_of_fixed (fun update => update.hasKey "cooldown" = true) ?_ ?_
  · intro update hupdate
    rw [addTo, hupdate, Bool.not_true, Bool.and_false]
    rfl
  · intro update
    unfold addTo
    split
    · exact .inl (Entries.hasKey_set_self _ _ _)
    · exact .inr rfl

theorem settles_visit (options : AddCooldown) : Settles options.visit :=
  Updates.settles_overEach options.settles_addTo

end AddCooldown

namespace InheritSecrets

theorem settles_inherit (location : Location) : Settles (inherit location) := by
  refine settles_of_fixed (fun secrets => secrets.entries?.any passesAllOn = false) ?_ ?_
  · intro secrets hsecrets
    rw [inherit, hsecrets]
    rfl
  · intro secrets
    unfold inherit
    split
    · exact .inl rfl
    · exact .inr rfl

theorem settles_visit : Settles visit :=
  Value.settles_overJobs (f := fun location => Entries.overKey "secrets" (inherit location))
    fun location => Entries.settles_overKey (settles_inherit location) "secrets"

end InheritSecrets

namespace RenameKey

theorem result_inOrder (entries : List (Value × Editing Value)) :
    (inOrder entries).result = entries.map fun (key, value) => (key, value.result) := by
  induction entries with
  | nil => rfl
  | cons entry rest ih => exact congrArg ((entry.1, entry.2.result) :: ·) ih

/-! ## Keys that are united -/

section Unite

variable {α : Type}

/-- One step of uniting: an entry replaces the one with the same key, or is the last. -/
theorem unite_concat (entries : List (Value × α)) (key : Value) (value : α) :
    unite (entries ++ [(key, value)]) =
      if (unite entries).any fun e => key.same e.1 then
        (unite entries).map fun e => if key.same e.1 then (key, value) else e
      else unite entries ++ [(key, value)] := by
  rw [unite, List.foldl_append]
  rfl

/-- Uniting keeps only entries that were there. -/
theorem mem_of_mem_unite {entries : List (Value × α)} {entry : Value × α}
    (h : entry ∈ unite entries) : entry ∈ entries := by
  induction entries using List.reverseRecOn with
  | nil => exact h
  | append_singleton earlier last ih =>
    obtain ⟨key, value⟩ := last
    rw [unite_concat] at h
    split at h
    · obtain ⟨e, he, heq⟩ := List.mem_map.mp h
      split at heq
      · exact heq ▸ List.mem_append_right _ List.mem_cons_self
      · exact List.mem_append_left _ (ih (heq ▸ he))
    · rcases List.mem_append.mp h with h | h
      · exact List.mem_append_left _ (ih h)
      · exact List.mem_append_right _ h

/-- Uniting keeps every key that is a string. -/
theorem exists_mem_unite {entries : List (Value × α)} {name : String}
    (h : ∃ value, (Value.string name, value) ∈ entries) :
    ∃ value, (Value.string name, value) ∈ unite entries := by
  -- From the end of the list, as a fold goes; an entry that is replaced keeps a key that is a string.
  induction entries using List.reverseRecOn with
  | nil => exact h
  | append_singleton earlier last ih =>
    obtain ⟨key, value⟩ := last
    obtain ⟨found, hfound⟩ := h
    rw [unite_concat]
    rcases List.mem_append.mp hfound with hfound | hfound
    · obtain ⟨kept, hkept⟩ := ih ⟨found, hfound⟩
      split
      · by_cases hkey : key.same (.string name) = true
        · have hstring : key = .string name := by
            cases key with
            | string text => rw [Value.same_string_iff.mp hkey]
            | _ => cases hkey
          exact ⟨value, List.mem_map.mpr ⟨_, hkept, by rw [if_pos hkey, hstring]⟩⟩
        · exact ⟨kept, List.mem_map.mpr ⟨_, hkept, if_neg hkey⟩⟩
      · exact ⟨kept, List.mem_append_left _ hkept⟩
    · rw [List.mem_singleton, Prod.mk.injEq] at hfound
      obtain ⟨rfl, rfl⟩ := hfound
      split
      · next hany =>
        obtain ⟨e, he, hsame⟩ := List.any_eq_true.mp hany
        exact ⟨found, List.mem_map.mpr ⟨e, he, if_pos hsame⟩⟩
      · exact ⟨found, List.mem_append_right _ List.mem_cons_self⟩

end Unite

/-! ## Renamed mappings -/

variable (options : RenameKey)

/-- The keys are kept where nothing is renamed. -/
theorem hasKey_inOrder_of_not_renamed (location : Location) (entries : Entries) (name : String) :
    Entries.hasKey (inOrder (renameInEntries options false location entries)).result name =
      entries.hasKey name := by
  rw [result_inOrder]
  induction entries with
  | nil => rfl
  | cons entry rest ih => exact congrArg (entry.1.isKey name || ·) ih

/-- A mapping in which the key was renamed has the new key. -/
theorem hasKey_inOrder_unite {entries : Entries} (h : entries.hasKey options.oldKey = true)
    (location : Location) :
    Entries.hasKey (inOrder (unite (renameInEntries options true location entries))).result
      options.newKey = true := by
  have hmem : ∃ value, (Value.string options.newKey, value) ∈
      renameInEntries options true location entries := by
    obtain ⟨value, hvalue⟩ := Entries.hasKey_iff_exists_mem.mp h
    clear h
    induction entries with
    | nil => cases hvalue
    | cons entry rest ih =>
      rcases List.mem_cons.mp hvalue with rfl | hvalue
      · refine ⟨_, List.mem_cons.mpr (.inl (Prod.ext ?_ rfl))⟩
        simp [newKeyOf, Value.text?, Value.untagged]
      · obtain ⟨found, hfound⟩ := ih hvalue
        exact ⟨found, List.mem_cons_of_mem _ hfound⟩
  -- The values are still to be changed here; the keys are final.
  obtain ⟨value, hvalue⟩ := exists_mem_unite hmem
  rw [result_inOrder, Entries.hasKey_iff_exists_mem]
  exact ⟨value.result, List.mem_map.mpr ⟨_, hvalue, rfl⟩⟩

/-- Nothing is renamed in a mapping a second time. -/
theorem isRenamedIn_inOrder (location : Location) (entries : Entries) :
    options.isRenamedIn (inOrder (
      if options.isRenamedIn entries then
        unite (renameInEntries options (options.isRenamedIn entries) location entries)
      else renameInEntries options (options.isRenamedIn entries) location entries)).result =
        false := by
  cases hrenamed : options.isRenamedIn entries with
  | true =>
    rw [if_pos rfl, isRenamedIn,
      hasKey_inOrder_unite options (Bool.and_eq_true_iff.mp hrenamed).1, Bool.not_true,
      Bool.and_false]
  | false =>
    rw [if_neg Bool.false_ne_true, isRenamedIn, hasKey_inOrder_of_not_renamed,
      hasKey_inOrder_of_not_renamed, ← isRenamedIn, hrenamed]

/-- A value that renaming leaves alone, wherever it stands. -/
def Rests (value : Value) : Prop :=
  ∀ location, (renameAt options location value).result = value

/-- A mapping rests if the key is not renamed in it and its values rest. -/
theorem rests_mapping {entries : Entries} (h : options.isRenamedIn entries = false)
    (hvalues : ∀ e ∈ entries, Rests options e.2) : Rests options (.mapping entries) := by
  intro location
  rw [renameAt]
  simp only [h, Bool.false_eq_true, if_false, result_bind]
  refine congrArg Value.mapping ?_
  rw [result_inOrder]
  clear h
  induction entries with
  | nil => rfl
  | cons entry rest ih =>
    have hvalue := hvalues entry List.mem_cons_self (location.key entry.1.keyText)
    have hrest := ih fun e he => hvalues e (List.mem_cons_of_mem _ he)
    rw [renameInEntries, List.map_cons, hrest]
    exact congrArg (fun value => (entry.1, value) :: rest) hvalue

theorem rests_sequence {items : List Value} (hitems : ∀ item ∈ items, Rests options item) :
    Rests options (.sequence items) := by
  intro location
  refine congrArg Value.sequence ?_
  generalize 0 = i
  induction items generalizing i with
  | nil => rfl
  | cons item rest ih =>
    have hitem := hitems item List.mem_cons_self (location.index i)
    have hrest := ih (fun e he => hitems e (List.mem_cons_of_mem _ he)) (i + 1)
    show _ :: _ = _
    rw [hitem, hrest]

mutual

/-- What renaming makes of a value rests. -/
theorem rests_renameAt (location : Location) :
    ∀ value : Value, Rests options (renameAt options location value).result
  | .mapping entries => by
    rw [renameAt]
    -- United or not, the values are among those that the inner visits made.
    refine rests_mapping options (isRenamedIn_inOrder options location entries) fun e he => ?_
    have hinner := rests_of_mem_renameInEntries (options.isRenamedIn entries) location entries
    rw [result_inOrder, List.mem_map] at he
    obtain ⟨inner, hmem, rfl⟩ := he
    split at hmem
    · exact hinner inner (mem_of_mem_unite hmem)
    · exact hinner inner hmem
  | .sequence items => rests_sequence options (rests_of_mem_renameInItems location 0 items)
  | .tagged _ _ | .string _ | .number _ | .bool _ | .null => fun _ => rfl

theorem rests_of_mem_renameInEntries (renamed : Bool) (location : Location) :
    ∀ entries : List (Value × Value), ∀ e ∈ renameInEntries options renamed location entries,
      Rests options e.2.result
  | [], _, h => nomatch h
  | (key, value) :: rest, e, h => by
    rw [renameInEntries] at h
    rcases List.mem_cons.mp h with rfl | h
    · exact rests_renameAt _ value
    · exact rests_of_mem_renameInEntries renamed location rest e h

theorem rests_of_mem_renameInItems (location : Location) (i : Nat) :
    ∀ items : List Value, ∀ item ∈ (renameInItems options location i items).result,
      Rests options item
  | [], _, h => nomatch h
  | first :: rest, item, h => by
    rcases List.mem_cons.mp h with rfl | h
    · exact rests_renameAt _ first
    · exact rests_of_mem_renameInItems location (i + 1) rest item h

end

theorem settles_visit : Settles options.visit := by
  unfold visit
  split
  · exact settles_pure
  · exact fun doc => rests_renameAt options Location.root doc Location.root

end RenameKey

namespace DropInput

variable (options : DropInput)

/-- What becomes of a value in a mapping; of the inputs of a call, `inputs` holds. -/
def overValue (inputs : Bool) (location : Location) : Value → Editing Value
  | .tagged tag inner =>
    pure (if inputs then (options.stripped? (.tagged tag inner)).getD .null
      else .tagged tag inner)
  | value => dropAt options (if inputs then some options.input else none) location value

/-- Whether an entry is dropped: its key is hidden, or it holds inputs of which nothing is left. -/
def drops (hidden : Option String) (call : Bool) (entry : Value × Value) : Bool :=
  (hidden.any fun name => entry.1.isKey name) ||
    (call && entry.1.isKey "with" && (options.stripped? entry.2).isNone)

section Mappings

variable {options} {hidden : Option String} {call : Bool} {entry : Value × Value}

theorem dropInEntries_of_drops (h : options.drops hidden call entry = true) (location : Location)
    (rest : Entries) : (dropInEntries options hidden call location (entry :: rest)).result =
      (dropInEntries options hidden call location rest).result := by
  obtain ⟨key, value⟩ := entry
  rw [drops, Bool.or_eq_true] at h
  rw [dropInEntries]
  split
  · rfl
  · next hshown =>
    rw [if_pos (h.resolve_left hshown)]

/-- An entry that is not dropped is gone into, and the others after it. -/
theorem dropInEntries_cons {key value : Value} (h : options.drops hidden call (key, value) = false)
    (location : Location) (rest : Entries) :
    dropInEntries options hidden call location ((key, value) :: rest) = (do
      let value ← options.overValue (call && key.isKey "with") (location.key key.keyText) value
      return (key, value) :: (← dropInEntries options hidden call location rest)) := by
  rw [drops, Bool.or_eq_false_iff] at h
  rw [dropInEntries, if_neg (by rw [h.1]; exact Bool.false_ne_true)]
  dsimp only
  rw [if_neg (by rw [h.2]; exact Bool.false_ne_true)]
  cases value <;> rfl

theorem dropInEntries_of_not_drops (h : options.drops hidden call entry = false)
    (location : Location) (rest : Entries) :
    (dropInEntries options hidden call location (entry :: rest)).result =
      (entry.1, (options.overValue (call && entry.1.isKey "with")
        (location.key entry.1.keyText) entry.2).result) ::
          (dropInEntries options hidden call location rest).result := by
  obtain ⟨key, value⟩ := entry
  rw [dropInEntries_cons h]
  rfl

/-- The keys that are left in a mapping. -/
theorem keys_dropInEntries (location : Location) (entries : Entries) :
    (dropInEntries options hidden call location entries).result.map Prod.fst =
      (entries.filter fun e => !options.drops hidden call e).map Prod.fst := by
  induction entries with
  | nil => rfl
  | cons entry rest ih =>
    cases h : options.drops hidden call entry with
    | true => rw [dropInEntries_of_drops h, ih, List.filter_cons, h]; rfl
    | false => rw [dropInEntries_of_not_drops h, List.map_cons, ih, List.filter_cons, h]; rfl

/-- No hidden key is left. -/
theorem without_dropInEntries (location : Location) (entries : Entries) :
    without hidden (dropInEntries options hidden call location entries).result =
      (dropInEntries options hidden call location entries).result := by
  cases hidden with
  | none => rfl
  | some name =>
    refine List.filter_eq_self.mpr fun e he => ?_
    have hkey : e.1 ∈ (entries.filter fun e => !options.drops (some name) call e).map Prod.fst := by
      rw [← keys_dropInEntries location]
      exact List.mem_map_of_mem he
    obtain ⟨old, hold, heq⟩ := List.mem_map.mp hkey
    have hkept := (List.mem_filter.mp hold).2
    rw [Bool.not_eq_true', drops, Bool.or_eq_false_iff] at hkept
    have hshown : old.1.isKey name = false := hkept.1
    rw [← heq, hshown]
    rfl

theorem without_cons (hidden : Option String) (key value : Value) (rest : Entries) :
    without hidden ((key, value) :: rest) =
      if hidden.any fun name => key.isKey name then without hidden rest
      else (key, value) :: without hidden rest := by
  cases hidden with
  | none => rfl
  | some name =>
    cases hkey : key.isKey name with
    | true => simp [without, Entries.erase_cons_of_isKey hkey, hkey]
    | false => simp [without, Entries.erase_cons_of_not_isKey hkey, hkey]

theorem text?_overValue (location : Location) (value : Value) :
    (options.overValue false location value).result.text? = value.text? := by
  cases value <;> rfl

/-- The text under `uses` stays, so a call stays a call. -/
theorem isCall_dropInEntries (location : Location) (entries : Entries) :
    options.isCall (without hidden (dropInEntries options hidden call location entries).result) =
      options.isCall (without hidden entries) := by
  have huses : Entries.text? (dropInEntries options hidden call location entries).result "uses" =
      (without hidden entries).text? "uses" := by
    induction entries with
    | nil => cases hidden <;> rfl
    | cons entry rest ih =>
      obtain ⟨key, value⟩ := entry
      cases h : options.drops hidden call (key, value) with
      | true =>
        rw [dropInEntries_of_drops h, ih, without_cons]
        split
        · rfl
        · next hshown =>
          -- A shown entry that is dropped has the key `with`.
          rw [drops, Bool.or_eq_true] at h
          have hinputs := h.resolve_left hshown
          rw [Bool.and_eq_true, Bool.and_eq_true] at hinputs
          have hkey : key.isKey "uses" = false :=
            Value.isKey_eq_false_of_isKey hinputs.1.2 (by decide)
          rw [Entries.text?, Entries.text?, Entries.get?_cons_of_not_isKey hkey]
      | false =>
        rw [dropInEntries_of_not_drops h, without_cons]
        rw [drops, Bool.or_eq_false_iff] at h
        rw [if_neg (by rw [h.1]; exact Bool.false_ne_true), Entries.text?, Entries.text?]
        cases hkey : key.isKey "uses" with
        | true =>
          rw [Entries.get?_cons_of_isKey hkey, Entries.get?_cons_of_isKey hkey,
            Value.isKey_eq_false_of_isKey hkey (by decide), Bool.and_false]
          exact text?_overValue _ value
        | false =>
          rw [Entries.get?_cons_of_not_isKey hkey, Entries.get?_cons_of_not_isKey hkey]
          exact ih
  rw [without_dropInEntries, isCall, huses, isCall]

/-- A mapping that has an entry besides the hidden one still has one. -/
theorem dropInEntries_ne_nil {entries : Entries} (h : without hidden entries ≠ [])
    (location : Location) :
    (dropInEntries options hidden (options.isCall (without hidden entries)) location
      entries).result ≠ [] := by
  -- A call keeps its `uses`, and what is no call loses the hidden key only.
  have hkept : ∃ entry ∈ entries,
      options.drops hidden (options.isCall (without hidden entries)) entry = false := by
    have hshown : ∀ {entry : Value × Value}, entry ∈ without hidden entries →
        entry ∈ entries ∧ (hidden.any fun name => entry.1.isKey name) = false := by
      intro entry hentry
      cases hidden with
      | none => exact ⟨hentry, rfl⟩
      | some name =>
        obtain ⟨hmem, hkey⟩ := List.mem_filter.mp hentry
        exact ⟨hmem, Bool.not_eq_true' _ ▸ hkey⟩
    cases hcall : options.isCall (without hidden entries) with
    | true =>
      rw [isCall, beq_iff_eq, Entries.text?, Option.bind_eq_some_iff] at hcall
      obtain ⟨value, hvalue, -⟩ := hcall
      obtain ⟨hmem, hhidden⟩ := hshown (Entries.mem_of_get?_eq_some hvalue)
      exact ⟨_, hmem, by rw [drops, hhidden]; rfl⟩
    | false =>
      obtain ⟨entry, hentry⟩ := List.exists_mem_of_ne_nil _ h
      obtain ⟨hmem, hhidden⟩ := hshown hentry
      exact ⟨entry, hmem, by rw [drops, hhidden]; rfl⟩
  obtain ⟨entry, hmem, hnot⟩ := hkept
  intro hnil
  have hkeys :=
    @keys_dropInEntries options hidden (options.isCall (without hidden entries)) location entries
  rw [hnil, List.map_nil, eq_comm, List.map_eq_nil_iff, List.filter_eq_nil_iff] at hkeys
  exact hkeys entry hmem (by rw [hnot]; rfl)

end Mappings

/-! ### The inputs of a call -/

/-- What is left after the input was dropped is left after it is dropped again. -/
theorem stripped?_of_stripped? {value left : Value} (h : options.stripped? value = some left) :
    options.stripped? left = some left := by
  unfold stripped? at h
  cases hinputs : value.entries? with
  | none =>
    rw [hinputs] at h
    cases h
    rw [stripped?, hinputs]
  | some inputs =>
    rw [hinputs] at h
    dsimp only at h
    split at h
    · cases h
    · next hleft =>
      cases h
      have hsettles :
          Settles fun _ : Entries => (pure (inputs.erase options.input) : Editing Entries) :=
        fun _ => rfl
      rw [Value.run_overEntries, stripped?, Value.entries?_overEntries, hinputs]
      dsimp only [Option.map_some, result_pure]
      rw [Entries.erase_erase, if_neg hleft, Value.run_overEntries,
        Value.settles_overEntries hsettles value]

theorem stripped?_tagged {tag : String} {inner left : Value}
    (h : options.stripped? (.tagged tag inner) = some left) :
    ∃ inner', left = .tagged tag inner' := by
  unfold stripped? at h
  split at h
  · dsimp only at h
    split at h
    · cases h
    · exact ⟨_, (Option.some.inj h).symm⟩
  · exact ⟨inner, (Option.some.inj h).symm⟩

theorem isSome_stripped?_mapping {inputs : Entries} :
    (options.stripped? (.mapping inputs)).isSome = true ↔
      without (some options.input) inputs ≠ [] := by
  rw [without, stripped?]
  cases h : Entries.erase inputs options.input with
  | nil => simp [Value.entries?, Value.untagged, h]
  | cons _ _ => simp [Value.entries?, Value.untagged, h]

/-- Inputs of which something is left still have something left. -/
theorem isSome_stripped?_overValue {value : Value} (h : (options.stripped? value).isSome = true)
    (location : Location) :
    (options.stripped? (options.overValue true location value).result).isSome = true := by
  cases value with
  | tagged tag inner =>
    obtain ⟨left, hleft⟩ := Option.isSome_iff_exists.mp h
    rw [overValue, if_pos rfl, hleft]
    exact Option.isSome_iff_exists.mpr ⟨left, options.stripped?_of_stripped? hleft⟩
  | mapping inputs =>
    rw [isSome_stripped?_mapping] at h
    refine (isSome_stripped?_mapping options).mpr ?_
    rw [if_pos rfl, without_dropInEntries]
    exact dropInEntries_ne_nil h location
  | _ => rfl

/-- A value that is kept once is kept again. -/
theorem drops_overValue {hidden : Option String} {call : Bool} {key value : Value}
    (h : options.drops hidden call (key, value) = false) (location : Location) :
    options.drops hidden call
      (key, (options.overValue (call && key.isKey "with") location value).result) = false := by
  rw [drops, Bool.or_eq_false_iff] at h ⊢
  refine ⟨h.1, ?_⟩
  cases hinputs : call && key.isKey "with" with
  | false => rfl
  | true =>
    have hleft := h.2
    rw [hinputs, Bool.true_and, Option.isNone_eq_false_iff] at hleft
    rw [Bool.true_and, Option.isNone_eq_false_iff]
    exact isSome_stripped?_overValue options hleft location

/-- A value settles in a mapping if it settles by itself. -/
theorem settled_overValue {inputs : Bool} {location : Location} {value : Value}
    (h : ∀ hidden, (dropAt options hidden location
      (dropAt options hidden location value).result).result =
        (dropAt options hidden location value).result)
    (hleft : inputs = true → (options.stripped? value).isSome = true) :
    (options.overValue inputs location (options.overValue inputs location value).result).result =
      (options.overValue inputs location value).result := by
  cases value with
  | tagged tag inner =>
    cases inputs with
    | false => rfl
    | true =>
      obtain ⟨left, hstripped⟩ := Option.isSome_iff_exists.mp (hleft rfl)
      obtain ⟨inner', rfl⟩ := options.stripped?_tagged hstripped
      simp only [overValue, if_true, result_pure, hstripped, Option.getD_some,
        options.stripped?_of_stripped? hstripped]
  | _ => exact h (if inputs then some options.input else none)

/-! ### The whole document -/

mutual

theorem settles_dropAt (hidden : Option String) (location : Location) :
    Settles (dropAt options hidden location)
  | .mapping entries => by
    -- The second visit takes the mapping for a call exactly if the first one did.
    have hentries := settles_dropInEntries hidden (options.isCall (without hidden entries)) location
      entries
    refine congrArg Value.mapping ?_
    rw [isCall_dropInEntries]
    exact hentries
  | .sequence items => congrArg Value.sequence (settles_dropInItems location 0 items)
  | .tagged _ _ | .string _ | .number _ | .bool _ | .null => rfl

theorem settles_dropInEntries (hidden : Option String) (call : Bool) (location : Location) :
    Settles (dropInEntries options hidden call location)
  | [] => rfl
  | (key, value) :: rest => by
    have hrest := settles_dropInEntries hidden call location rest
    have hvalue := fun hidden => settles_dropAt hidden (location.key key.keyText) value
    cases h : options.drops hidden call (key, value) with
    | true => rw [dropInEntries_of_drops h, hrest]
    | false =>
      rw [dropInEntries_of_not_drops h, dropInEntries_of_not_drops (options.drops_overValue h _),
        hrest, settled_overValue options hvalue]
      intro hinputs
      rw [drops, hinputs, Bool.or_eq_false_iff, Bool.true_and, Option.isNone_eq_false_iff] at h
      exact h.2

theorem settles_dropInItems (location : Location) (i : Nat) :
    Settles (dropInItems options location i)
  | [] => rfl
  | item :: rest => by
    have hitem := settles_dropAt none (location.index i) item
    have hrest := settles_dropInItems location (i + 1) rest
    show _ :: _ = _
    rw [hitem, hrest]
    rfl

end

theorem settles_visit : Settles options.visit := settles_dropAt options none Location.root

end DropInput

end WorkflowRecipes
