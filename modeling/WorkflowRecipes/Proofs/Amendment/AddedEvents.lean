import WorkflowRecipes.Amendment.Trigger
import WorkflowRecipes.Proofs.Document.Equality
import WorkflowRecipes.Proofs.Document.Keeping

/-!
# Events that are added

An event is added behind the events that a workflow has, which become the keys of a mapping: each
once, in the order in which they first occur, with the settings that they had. Triggers that name
the event already, or that cannot be made such a mapping, are left alone as a whole. To drop the
schedule again leaves the mapping without it.

Results:
1. `hasEvent_iff`, `events?_eq_some_iff`: which events triggers name, and how they are listed.
2. `addTo_of_names`, `addTo_of_shapeless`, `addTo_of_lists`: what becomes of triggers.
3. `visit_adds`: what becomes of a document.
-/

namespace WorkflowRecipes.Trigger

section Parts

variable {event : String} {settings triggers : Value} {events : Entries}

/-! ## What is meant -/

/-- Triggers name an event: alone, as an item, or as a key. -/
inductive Names (event : String) : Value → Prop
  | alone : Names event (.string event)
  | item {items : List Value} {item : Value} : item ∈ items → item.text? = some event →
      Names event (.sequence items)
  | key {entries : Entries} {settings : Value} : (.string event, settings) ∈ entries →
      Names event (.mapping entries)

/-- An event without settings. -/
def unset (event : String) : Value × Value := (.string event, .null)

/-- Triggers list events: one, several in the order in which they first occur, or such that have
settings. -/
inductive Lists : Value → Entries → Prop
  | one (event : String) : Lists (.string event) [unset event]
  | several {items : List Value} {names : List String} :
      List.Forall₂ (fun item name => item.text? = some name) items names →
        Lists (.sequence items) (names.eraseDups.map unset)
  | withSettings (entries : Entries) : Lists (.mapping entries) entries

/-- Nothing is added to a document: it has no triggers, or such that name the event already or list
no events. -/
inductive Rests (event : String) (doc : Value) : Prop
  | absent : doc.get? "on" = none → Rests event doc
  | named {triggers : Value} : doc.get? "on" = some triggers → Names event triggers →
      Rests event doc
  | shapeless {triggers : Value} : doc.get? "on" = some triggers →
      (∀ events, ¬ Lists triggers events) → Rests event doc

/-! ## Events as keys -/

theorem hasKey_unset (names : List String) (event : String) :
    Entries.hasKey (names.map unset) event = true ↔ event ∈ names := by
  rw [Entries.hasKey_iff_exists_mem]
  constructor
  · rintro ⟨settings, hmem⟩
    obtain ⟨name, hname, heq⟩ := List.mem_map.mp hmem
    cases heq
    exact hname
  · exact fun hmem => ⟨.null, List.mem_map_of_mem hmem⟩

/-- An event that occurs again stays in its first place. -/
theorem set_unset (names : List String) (event : String) :
    Entries.set (names.map unset) event .null =
      (if event ∈ names then names else names ++ [event]).map unset := by
  split
  · next hmem =>
    have hkey := (hasKey_unset names event).mpr hmem
    rw [Entries.hasKey_eq, Option.isSome_iff_exists] at hkey
    obtain ⟨settings, hget⟩ := hkey
    obtain ⟨_, _, heq⟩ := List.mem_map.mp (Entries.mem_of_get?_eq_some hget)
    cases heq
    exact Entries.set_of_get? hget
  · next hmem =>
    have hkey := mt (hasKey_unset names event).mp hmem
    rw [Entries.set_of_not_hasKey (Bool.not_eq_true _ ▸ hkey), List.map_append]
    rfl

/-- Events that are inserted one by one behind those that were seen. -/
theorem foldl_unset (names seen : List String) :
    (names.map unset).foldl (fun acc e => Entries.insert acc e.1 e.2) (seen.map unset) =
      (seen ++ (names.filter (· ∉ seen)).eraseDups).map unset := by
  induction names generalizing seen with
  | nil => rw [List.filter_nil, List.eraseDups_nil, List.append_nil]; rfl
  | cons name rest ih =>
    show (rest.map unset).foldl _ (Entries.set (seen.map unset) name .null) = _
    rw [set_unset]
    split
    · next hmem => rw [ih, List.filter_cons_of_neg (by simpa using hmem)]
    · next hmem =>
      have hlater : rest.filter (· ∉ seen ++ [name]) =
          (rest.filter (· ∉ seen)).filter fun other => !other == name := by
        rw [List.filter_filter]
        refine List.filter_congr fun other _ => ?_
        by_cases hother : other = name <;> simp [hother]
      rw [ih, List.filter_cons_of_pos (by simpa using hmem), List.eraseDups_cons, hlater,
        List.append_assoc, List.singleton_append]

theorem ofList_unset (names : List String) :
    Entries.ofList (names.map unset) = names.eraseDups.map unset := by
  have h := foldl_unset names []
  have hall : names.filter (· ∉ ([] : List String)) = names :=
    List.filter_eq_self.mpr fun _ _ => rfl
  rw [hall, List.nil_append] at h
  exact h

theorem mapM_text?_eq_some_iff {items : List Value} {names : List String} :
    items.mapM Value.text? = some names ↔
      List.Forall₂ (fun item name => item.text? = some name) items names := by
  induction items generalizing names with
  | nil => rw [List.forall₂_nil_left_iff]; exact Option.some_inj.trans eq_comm
  | cons item rest ih =>
    rw [List.mapM_cons, List.forall₂_cons_left_iff]
    constructor
    · intro h
      obtain ⟨name, hname, h⟩ := Option.bind_eq_some_iff.mp h
      obtain ⟨names, hnames, h⟩ := Option.bind_eq_some_iff.mp h
      exact ⟨name, names, hname, ih.mp hnames, (Option.some.inj h).symm⟩
    · rintro ⟨name, names, hname, hnames, rfl⟩
      rw [hname, ih.mpr hnames]
      rfl

theorem mem_names_iff {items : List Value} {names : List String}
    (h : List.Forall₂ (fun item name => item.text? = some name) items names) :
    event ∈ names ↔ ∃ item ∈ items, item.text? = some event := by
  induction h with
  | nil => simp
  | cons hfirst _ ih => simp [hfirst, ih, eq_comm]

theorem hasEvent_iff : hasEvent event triggers = true ↔ Names event triggers := by
  cases triggers with
  | string text =>
    rw [hasEvent, beq_iff_eq]
    constructor
    · rintro rfl
      exact .alone
    · rintro ⟨⟩
      rfl
  | sequence items =>
    rw [hasEvent, List.any_eq_true]
    constructor
    · rintro ⟨item, hmem, htext⟩
      exact .item hmem (beq_iff_eq.mp htext)
    · intro h
      cases h with
      | item hmem htext => exact ⟨_, hmem, beq_iff_eq.mpr htext⟩
  | mapping entries =>
    rw [hasEvent, Entries.hasKey_iff_exists_mem]
    constructor
    · rintro ⟨settings, hmem⟩
      exact .key hmem
    · intro h
      cases h with
      | key hmem => exact ⟨_, hmem⟩
  | _ => exact iff_of_false Bool.false_ne_true nofun

theorem events?_eq_some_iff : events? triggers = some events ↔ Lists triggers events := by
  cases triggers with
  | string text =>
    rw [events?, Option.some_inj]
    constructor
    · rintro rfl
      exact .one text
    · rintro ⟨⟩
      rfl
  | sequence items =>
    rw [events?, Option.map_eq_some_iff]
    constructor
    · rintro ⟨names, hnames, rfl⟩
      have heq : Entries.ofList (names.map fun name => (.string name, .null)) = _ :=
        ofList_unset names
      rw [heq]
      exact .several (mapM_text?_eq_some_iff.mp hnames)
    · intro h
      cases h with
      | several hnames => exact ⟨_, mapM_text?_eq_some_iff.mpr hnames, ofList_unset _⟩
  | mapping entries =>
    rw [events?, Option.some_inj]
    constructor
    · rintro rfl
      exact .withSettings entries
    · rintro ⟨⟩
      rfl
  | _ => exact iff_of_false nofun nofun

/-- Triggers name the events that they list. -/
theorem names_iff_hasKey (h : Lists triggers events) :
    Names event triggers ↔ events.hasKey event = true := by
  cases h with
  | one name =>
    have hkey := hasKey_unset [name] event
    rw [List.mem_singleton] at hkey
    rw [← hasEvent_iff, hasEvent, beq_iff_eq, eq_comm]
    exact hkey.symm
  | several hnames =>
    rw [hasKey_unset, List.mem_eraseDups, mem_names_iff hnames, ← hasEvent_iff, hasEvent,
      List.any_eq_true]
    simp only [beq_iff_eq]
  | withSettings => rw [← hasEvent_iff, hasEvent]

/-! ## Triggers -/

theorem addTo_of_names (h : Names event triggers) (settings : Value) :
    addTo event settings triggers = pure triggers :=
  if_pos (hasEvent_iff.mpr h)

theorem addTo_of_shapeless (h : ∀ events, ¬ Lists triggers events) (event : String)
    (settings : Value) : addTo event settings triggers = pure triggers := by
  have hevents : events? triggers = none :=
    Option.eq_none_iff_forall_ne_some.mpr fun events heq => h events (events?_eq_some_iff.mp heq)
  rw [addTo, hevents]
  exact ite_self _

theorem addTo_of_lists (h : ¬ Names event triggers) (hlists : Lists triggers events)
    (settings : Value) : addTo event settings triggers =
      .one (location.key event) ("added " ++ event)
        (.mapping (events ++ [(.string event, settings)])) := by
  have hkey : events.hasKey event = false :=
    Bool.not_eq_true _ ▸ mt (names_iff_hasKey hlists).mpr h
  rw [addTo, if_neg (mt hasEvent_iff.mp h), events?_eq_some_iff.mpr hlists]
  dsimp only
  rw [Entries.set_of_not_hasKey hkey]

/-! ## Documents -/

theorem add_of_rests {doc : Value} (h : Rests event doc) (settings : Value) :
    add event settings doc = pure doc := by
  show Value.overKeys ["on"] (addTo event settings) doc = pure doc
  refine Value.overKeys_eq_pure fun triggers hon => ?_
  rw [Value.lookup?_singleton] at hon
  cases h with
  | absent hnone => cases hnone.symm.trans hon
  | named hsome hnames =>
    obtain rfl := Option.some.inj (hsome.symm.trans hon)
    exact addTo_of_names hnames settings
  | shapeless hsome hlists =>
    obtain rfl := Option.some.inj (hsome.symm.trans hon)
    exact addTo_of_shapeless hlists event settings

/-- What becomes of triggers when an event is added and the schedule is dropped then. -/
def addAndDrop (event : String) (settings triggers : Value) : Editing Value :=
  Value.overEntries dropSchedule (addTo event settings triggers).result

theorem result_removeCron_add (event : String) (settings doc : Value) :
    (removeCron (add event settings doc).result).result =
      (doc.overKey "on" (addAndDrop event settings)).result :=
  Value.result_overKey_overKey (fun _ => rfl) "on" doc

/-- A schedule that was added is dropped without a trace. -/
theorem result_addAndDrop (h : ¬ Names "schedule" triggers) (hlists : Lists triggers events)
    (settings : Value) : (addAndDrop "schedule" settings triggers).result = .mapping events := by
  have hkey : events.hasKey "schedule" = false :=
    Bool.not_eq_true _ ▸ mt (names_iff_hasKey hlists).mpr h
  have hadded : Entries.hasKey (events ++ [(.string "schedule", settings)]) "schedule" = true :=
    Entries.hasKey_iff_exists_mem.mpr ⟨settings, List.mem_append_right _ List.mem_cons_self⟩
  rw [addAndDrop, addTo_of_lists h hlists]
  show Value.mapping (dropSchedule (events ++ [(.string "schedule", settings)])).result = _
  rw [dropSchedule, if_pos hadded]
  exact congrArg Value.mapping (Entries.erase_append_self hkey settings)

end Parts

/-- An event that can be added to workflows: the schedule, or the start by hand. -/
inductive Added where
  | schedule (options : AddCron)
  | manual

namespace Added

/-- The name of the event. -/
def event : Added → String
  | schedule _ => "schedule"
  | manual => "workflow_dispatch"

/-- The settings of the event. -/
def settings : Added → Value
  | schedule options => .sequence [.mapping [(.string "cron", .string options.expression)]]
  | manual => .null

/-- Add the event to a document. -/
def visit : Added → Value → Editing Value
  | schedule options, doc => options.visit doc
  | manual, doc => addManual doc

theorem visit_eq_add (added : Added) (doc : Value) :
    added.visit doc = add added.event added.settings doc := by
  cases added <;> rfl

/-- A document whose triggers name the event or list no events is left alone. In any other one the
triggers become the events that they list, with the added one behind them, and all else is kept. To
drop a schedule that was added leaves the events as they were listed. -/
theorem visit_adds (added : Added) (doc : Value) :
    (Rests added.event doc → added.visit doc = pure doc) ∧
      ∀ triggers events, doc.get? "on" = some triggers → ¬ Names added.event triggers →
        Lists triggers events →
          Value.ReplacedAt triggers (.mapping (events ++ [(.string added.event, added.settings)]))
            ["on"] doc (added.visit doc).result ∧
          (added.visit doc).edits = [⟨location.key added.event, "added " ++ added.event⟩] ∧
          ∀ options, added = schedule options →
            Value.ReplacedAt triggers (.mapping events) ["on"] doc
              (removeCron (added.visit doc).result).result ∧
            (triggers = .mapping events → (removeCron (added.visit doc).result).result = doc) := by
  rw [visit_eq_add]
  refine ⟨fun hrests => add_of_rests hrests added.settings,
    fun triggers events hget hnames hlists => ?_⟩
  have hlookup : doc.lookup? ["on"] = some triggers := (Value.lookup?_singleton doc "on").trans hget
  have hadd := addTo_of_lists hnames hlists added.settings
  refine ⟨?_, ?_, ?_⟩
  · have hreplaced := Value.replacedAt_overKeys hlookup (addTo added.event added.settings)
    rw [hadd] at hreplaced
    exact hreplaced
  · have hedits := Value.edits_overKeys hlookup (addTo added.event added.settings)
    rw [hadd] at hedits
    exact hedits
  · rintro options rfl
    have hreplaced :=
      Value.replacedAt_overKeys hlookup (addAndDrop "schedule" (schedule options).settings)
    rw [result_addAndDrop hnames hlists] at hreplaced
    rw [result_removeCron_add]
    exact ⟨hreplaced, fun hsame => hreplaced.eq_of_same hsame.symm⟩

/-- A workflow with these triggers. -/
def sampleWorkflow (triggers : Value) : Value :=
  .mapping [(.string "name", .string "CI"), (.string "on", triggers),
    (.string "jobs", .mapping [])]

/-- Two of three items name the same event, which is listed once. Triggers that are null list
nothing, and triggers that are a mapping are the same again without the schedule. -/
theorem visit_sampleWorkflow :
    let added := schedule { cron := "0 18 * * *" }
    let triggers : Value :=
      .sequence [.string "push", .tagged "t" (.string "pull_request"), .string "push"]
    let events := [unset "push", unset "pull_request"]
    Rests added.event (sampleWorkflow .null) ∧
      added.visit (sampleWorkflow .null) = pure (sampleWorkflow .null) ∧
      (sampleWorkflow triggers).get? "on" = some triggers ∧ ¬ Names added.event triggers ∧
      Lists triggers events ∧
      Value.ReplacedAt triggers (.mapping (events ++ [(.string "schedule", added.settings)]))
        ["on"] (sampleWorkflow triggers) (added.visit (sampleWorkflow triggers)).result ∧
      (sampleWorkflow (.mapping events)).get? "on" = some (.mapping events) ∧
      ¬ Names added.event (.mapping events) ∧ Lists (.mapping events) events ∧
      (removeCron (added.visit (sampleWorkflow (.mapping events))).result).result =
        sampleWorkflow (.mapping events) := by
  intro added triggers events
  have hrests : Rests added.event (sampleWorkflow .null) := .shapeless rfl nofun
  have hnames : ¬ Names added.event triggers := mt hasEvent_iff.mpr (by decide)
  have hlists : Lists triggers events := events?_eq_some_iff.mp (by decide)
  have hnames' : ¬ Names added.event (.mapping events) := mt hasEvent_iff.mpr (by decide)
  have hlists' : Lists (.mapping events) events := .withSettings events
  obtain ⟨hreplaced, -⟩ :=
    (visit_adds added (sampleWorkflow triggers)).2 triggers events rfl hnames hlists
  obtain ⟨-, -, hdropped⟩ := (visit_adds added (sampleWorkflow (.mapping events))).2
    (.mapping events) events rfl hnames' hlists'
  exact ⟨hrests, (visit_adds added (sampleWorkflow .null)).1 hrests, rfl, hnames, hlists, hreplaced,
    rfl, hnames', hlists', (hdropped _ rfl).2 rfl⟩

end Added

end WorkflowRecipes.Trigger
