import WorkflowRecipes.Amendment.Action
import WorkflowRecipes.Proofs.Document.Keeping
import WorkflowRecipes.Proofs.Text.Occurrences

/-!
# Messages that are migrated

A step that sends a message with the old inputs is migrated as a whole or left alone as a whole. It
is migrated if the token, the channel and the text all are scalars without tags, and what is read is
what is taken away: the tags around the inputs and around the environment do not matter.

Results:
1. `message?_eq_some_iff`: the steps that have a message.
2. `newInputs_from`, `moved_upgraded`: what becomes of the inputs and of the step.
3. `visit_migrates`: what becomes of a document.
-/

namespace WorkflowRecipes

/-- A string, number or truth value without a tag has a text. -/
inductive Value.HasText : Value → String → Prop
  | string (text : String) : HasText (.string text) text
  | number (n : Number) : HasText (.number n) n.text
  | bool (b : Bool) : HasText (.bool b) (if b then "true" else "false")

theorem Value.scalarText?_eq_some_iff {value : Value} {text : String} :
    value.scalarText? = some text ↔ value.HasText text := by
  constructor
  · intro h
    cases value with
    | string s => exact Option.some.inj h ▸ .string s
    | number n => exact Option.some.inj h ▸ .number n
    | bool b => exact Option.some.inj h ▸ .bool b
    | _ => cases h
  · rintro ⟨⟩ <;> rfl

namespace Slack

variable {message : Message} {step inputs environment : Entries} {slot : Value}

/-! ## What is meant -/

/-- A step says a text under a key of one of its parts. -/
def Gives (step : Entries) (part key text : String) : Prop :=
  ∃ slot value, step.get? part = some slot ∧ slot.get? key = some value ∧ value.HasText text

/-- A step sends a message with the old inputs. -/
structure Sends (step : Entries) (message : Message) : Prop where
  uses : ∃ uses, step.uses? = some uses ∧ "slackapi/slack-github-action@v1".toList <+: uses.toList
  token : Gives step "env" "SLACK_BOT_TOKEN" message.token
  channel : Gives step "with" "channel-id" message.channel
  text : Gives step "with" "slack-message" message.text

/-- The new inputs in the place of the old ones. -/
structure NewInputs (message : Message) (old new : Entries) : Prop where
  channel : new.get? "channel-id" = none
  text : new.get? "slack-message" = none
  method : new.get? "method" = some (.string "chat.postMessage")
  token : new.get? "token" = some (.string message.token)
  payload : new.get? "payload" = some (.string (payload message))
  rest : new.without ["channel-id", "slack-message", "method", "token", "payload"] =
    old.without ["channel-id", "slack-message", "method", "token", "payload"]

/-- A step with the new inputs. The token is gone from the environment, and the environment from the
step if nothing else is in it; all other keys stay in their places. -/
structure Moved (message : Message) (old new : Entries) : Prop where
  uses : new.get? "uses" = some (.string "slackapi/slack-github-action@v2.0.0")
  inputs : ∃ slot inputs inputs', old.get? "with" = some slot ∧ slot.entries? = some inputs ∧
    new.get? "with" = some (slot.withEntries inputs') ∧ NewInputs message inputs inputs'
  environment : ∃ slot environment, old.get? "env" = some slot ∧
    slot.entries? = some environment ∧
    (environment.erase "SLACK_BOT_TOKEN" = [] ∧ new.get? "env" = none ∧
        Entries.SameBut ["uses", "with"] (old.erase "env") new ∨
      environment.erase "SLACK_BOT_TOKEN" ≠ [] ∧
        new.get? "env" = some (slot.withEntries (environment.erase "SLACK_BOT_TOKEN")) ∧
        Entries.SameBut ["uses", "with", "env"] old new)

/-- A step that sends a message with the old inputs is migrated with one edit, and any other step is
left alone. -/
inductive Migrates (location : Location) (step : Entries) : Editing Entries → Prop
  | moved {message : Message} {new : Entries} : Sends step message → Moved message step new →
      Migrates location step
        ⟨new, [⟨location, "migrated to slackapi/slack-github-action@v2.0.0"⟩]⟩
  | kept : (∀ message, ¬ Sends step message) → Migrates location step (pure step)

/-! ## What is read -/

theorem gives_iff {part key text : String} : Gives step part key text ↔
    ((step.get? part).bind fun slot => slot.get? key).bind Value.scalarText? = some text := by
  simp only [Option.bind_eq_some_iff, Value.scalarText?_eq_some_iff]
  constructor
  · rintro ⟨slot, value, hslot, hvalue, htext⟩
    exact ⟨value, ⟨slot, hslot, hvalue⟩, htext⟩
  · rintro ⟨value, ⟨slot, hslot, hvalue⟩, htext⟩
    exact ⟨slot, value, hslot, hvalue, htext⟩

theorem message?_eq_some_iff : message? step = some message ↔
    Gives step "env" "SLACK_BOT_TOKEN" message.token ∧
      Gives step "with" "channel-id" message.channel ∧
      Gives step "with" "slack-message" message.text := by
  rw [gives_iff, gives_iff, gives_iff, message?]
  simp only [Option.bind_eq_some_iff, Option.map_eq_some_iff]
  constructor
  · rintro ⟨token, htoken, channel, hchannel, text, htext, rfl⟩
    exact ⟨htoken, hchannel, htext⟩
  · rintro ⟨htoken, hchannel, htext⟩
    exact ⟨_, htoken, _, hchannel, _, htext, rfl⟩

/-- What gives a text has entries. -/
theorem Gives.entries {part key text : String} (h : Gives step part key text) :
    ∃ slot entries, step.get? part = some slot ∧ slot.entries? = some entries := by
  obtain ⟨slot, value, hslot, hvalue, -⟩ := h
  obtain ⟨entries, hentries, -⟩ := Option.bind_eq_some_iff.mp hvalue
  exact ⟨slot, entries, hslot, hentries⟩

/-! ## What is written -/

theorem newInputs_from (message : Message) (inputs : Entries) :
    NewInputs message inputs (newInputs message inputs) := by
  refine ⟨?_, ?_, ?_, ?_, ?_, ?_⟩
  · rw [newInputs, Entries.get?_set_of_ne (by decide), Entries.get?_set_of_ne (by decide),
      Entries.get?_set_of_ne (by decide), Entries.get?_erase_of_ne (by decide),
      Entries.get?_erase_self]
  · rw [newInputs, Entries.get?_set_of_ne (by decide), Entries.get?_set_of_ne (by decide),
      Entries.get?_set_of_ne (by decide), Entries.get?_erase_self]
  · rw [newInputs, Entries.get?_set_of_ne (by decide), Entries.get?_set_of_ne (by decide),
      Entries.get?_set_self]
  · rw [newInputs, Entries.get?_set_of_ne (by decide), Entries.get?_set_self]
  · rw [newInputs, Entries.get?_set_self]
  · rw [newInputs, Entries.without_set (by decide), Entries.without_set (by decide),
      Entries.without_set (by decide), Entries.without_erase (by decide),
      Entries.without_erase (by decide)]

/-- A step with the new inputs that uses the new action. -/
def renewed (message : Message) (step : Entries) : Entries :=
  (step.overKey "with" (Value.overEntries fun inputs =>
    (pure (newInputs message inputs) : Editing Entries))).result.set "uses" (.string target)

/-- The environment of a step without the token. -/
def withoutToken (step : Entries) : Entries :=
  (step.overKey "env" (Value.overEntries fun environment =>
    (pure (environment.erase "SLACK_BOT_TOKEN") : Editing Entries))).result

theorem run_overKey_overEntries (g : Entries → Entries) (name : String) (step : Entries) :
    Id.run (step.overKey name (Value.overEntries fun entries => pure (g entries))) =
      (step.overKey name (Value.overEntries fun entries =>
        (pure (g entries) : Editing Entries))).result := by
  rw [Entries.run_overKey]
  refine Entries.result_overKey_congr fun value _ => ?_
  rw [Editing.result_pure, Value.run_overEntries]

theorem upgraded_eq (message : Message) (step : Entries) :
    upgraded message step = renewed message (dropToken step) := by
  rw [upgraded, run_overKey_overEntries, renewed]

theorem dropToken_of_empty (hslot : step.get? "env" = some slot)
    (hentries : slot.entries? = some environment)
    (hempty : environment.erase "SLACK_BOT_TOKEN" = []) : dropToken step = step.erase "env" := by
  rw [dropToken, hslot, Option.bind_some, hentries]
  exact if_pos (List.isEmpty_iff.mpr hempty)

theorem dropToken_of_ne (hslot : step.get? "env" = some slot)
    (hentries : slot.entries? = some environment)
    (hne : environment.erase "SLACK_BOT_TOKEN" ≠ []) : dropToken step = withoutToken step := by
  rw [dropToken, hslot, Option.bind_some, hentries]
  dsimp only
  rw [if_neg (mt List.isEmpty_iff.mp hne), run_overKey_overEntries, withoutToken]

theorem get?_renewed_of_ne {name : String} (huses : "uses" ≠ name) (hwith : "with" ≠ name)
    (message : Message) (step : Entries) : (renewed message step).get? name = step.get? name := by
  rw [renewed, Entries.get?_set_of_ne huses, Entries.get?_overKey_of_ne hwith]

theorem sameBut_renewed (h : step.hasKey "uses" = true) (message : Message) :
    Entries.SameBut ["uses", "with"] step (renewed message step) := by
  have hinputs : Entries.SameBut ["uses", "with"] step
      (step.overKey "with" (Value.overEntries fun inputs =>
        (pure (newInputs message inputs) : Editing Entries))).result :=
    Entries.sameBut_overKey (by decide) _ step
  refine hinputs.trans (Entries.sameBut_set (by decide) ?_ _)
  rw [Entries.hasKey_eq, Entries.get?_overKey_of_ne (by decide), ← Entries.hasKey_eq, h]

theorem get?_dropToken_of_ne {name : String} (h : "env" ≠ name) (step : Entries) :
    (dropToken step).get? name = step.get? name := by
  unfold dropToken
  split
  · rfl
  · split
    · exact Entries.get?_erase_of_ne h step
    · rw [run_overKey_overEntries, Entries.get?_overKey_of_ne h]

theorem moved_upgraded (h : Sends step message) : Moved message step (upgraded message step) := by
  obtain ⟨uses, huses, -⟩ := h.uses
  obtain ⟨slot, inputs, hslot, hinputs⟩ := h.channel.entries
  obtain ⟨place, environment, hplace, henvironment⟩ := h.token.entries
  have hkey : step.hasKey "uses" = true := by
    obtain ⟨value, hvalue, -⟩ := Option.bind_eq_some_iff.mp huses
    rw [Entries.hasKey_eq, hvalue]
    rfl
  rw [upgraded_eq]
  refine ⟨Entries.get?_set_self _ _ _, ⟨slot, inputs, newInputs message inputs, hslot, hinputs, ?_,
    newInputs_from message inputs⟩, ⟨place, environment, hplace, henvironment, ?_⟩⟩
  · rw [renewed, Entries.get?_set_of_ne (by decide), Entries.get?_overKey_self,
      get?_dropToken_of_ne (by decide), hslot, Option.map_some, Value.overEntries_eq_map hinputs,
      Editing.result_map, Editing.result_pure]
  · rw [get?_renewed_of_ne (by decide) (by decide)]
    by_cases hempty : environment.erase "SLACK_BOT_TOKEN" = []
    · refine .inl ⟨hempty, ?_, ?_⟩
      · rw [dropToken_of_empty hplace henvironment hempty, Entries.get?_erase_self]
      · rw [dropToken_of_empty hplace henvironment hempty]
        refine sameBut_renewed ?_ message
        rw [Entries.hasKey_eq, Entries.get?_erase_of_ne (by decide), ← Entries.hasKey_eq, hkey]
    · refine .inr ⟨hempty, ?_, ?_⟩
      · rw [dropToken_of_ne hplace henvironment hempty, withoutToken, Entries.get?_overKey_self,
          hplace, Option.map_some, Value.overEntries_eq_map henvironment, Editing.result_map,
          Editing.result_pure]
      · rw [dropToken_of_ne hplace henvironment hempty]
        have hdropped : Entries.SameBut ["uses", "with", "env"] step (withoutToken step) :=
          Entries.sameBut_overKey (by decide) _ step
        refine hdropped.trans ((sameBut_renewed ?_ message).mono (by decide))
        rw [Entries.hasKey_eq, withoutToken, Entries.get?_overKey_of_ne (by decide),
          ← Entries.hasKey_eq, hkey]

/-! ## Steps and documents -/

theorem sends_iff : Sends step message ↔
    step.uses?.any (fun uses => startsWith uses source) = true ∧ message? step = some message := by
  rw [message?_eq_some_iff, Option.any_eq_true]
  constructor
  · rintro ⟨⟨uses, huses, hsource⟩, htoken, hchannel, htext⟩
    exact ⟨⟨uses, huses, Text.startsWith_iff.mpr hsource⟩, htoken, hchannel, htext⟩
  · rintro ⟨⟨uses, huses, hsource⟩, htoken, hchannel, htext⟩
    exact ⟨⟨uses, huses, Text.startsWith_iff.mp hsource⟩, htoken, hchannel, htext⟩

theorem step_migrates (location : Location) (old : Entries) :
    Migrates location old (Slack.step location old) := by
  by_cases h : ∃ message, Sends old message
  · obtain ⟨message, hsends⟩ := h
    obtain ⟨huses, hmessage⟩ := sends_iff.mp hsends
    rw [Slack.step, if_pos huses, hmessage]
    exact .moved hsends (moved_upgraded hsends)
  · have hstep : Slack.step location old = pure old := by
      unfold Slack.step
      split
      · next huses =>
        split
        · next message hmessage => exact absurd ⟨message, sends_iff.mpr ⟨huses, hmessage⟩⟩ h
        · rfl
      · rfl
    rw [hstep]
    exact .kept fun message hsends => h ⟨message, hsends⟩

/-- Each step of a document that sends a message with the old inputs is migrated, with one edit, and
each other step and all that stands around the steps is kept. -/
theorem visit_migrates (doc : Value) : Value.ChangesSteps Migrates doc (visit doc) :=
  Value.changesSteps_overSteps step_migrates doc

/-- The environment of the first step has another entry. The second one has nothing but
the token in an environment with a tag. The token of the third one has a tag. -/
example :
    let inputs : Entries :=
      [(.string "channel-id", .string "C"), (.string "slack-message", .bool true)]
    let step (environment : Value) : Value := .mapping [
      (.string "uses", .string "slackapi/slack-github-action@v1.27.0"),
      (.string "with", .mapping inputs), (.string "env", environment)]
    (visit (.mapping [(.string "steps", .sequence [
      step (.mapping [(.string "SLACK_BOT_TOKEN", .string "t"), (.string "A", .null)]),
      step (.tagged "x" (.mapping [(.string "SLACK_BOT_TOKEN", .string "t")])),
      step (.mapping [(.string "SLACK_BOT_TOKEN", .tagged "x" (.string "t"))])])])).edits =
        [⟨⟨[.key "steps", .index 0]⟩, "migrated to slackapi/slack-github-action@v2.0.0"⟩,
          ⟨⟨[.key "steps", .index 1]⟩, "migrated to slackapi/slack-github-action@v2.0.0"⟩] := by
  decide

end Slack

end WorkflowRecipes
