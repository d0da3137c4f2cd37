import Mathlib.Data.List.Nodup
import WorkflowRecipes.Run.Basic

/-!
# What a run does

The deeds of a run, in order: it logs its start, settles the files of its plan one by one, and logs
its end. To settle a file is to write it and log that, if it is to be modified, and to log its
findings. A run that is cut short has done the deeds of a strict prefix.

Results:
1. `events_deeds`: the events that a run logs.
2. `prefix_deeds`: how far a run that is cut short has come.
3. `exists_write_of_begun`, `length_paths_of_begun`: the log of such a run names a file only after it
   was written, and at most one file that was written is not named yet.
-/

namespace WorkflowRecipes

/-- Something that a run does: it gives a text to the file at a path, or it logs an event. -/
inductive Deed where
  | write (path text : String)
  | log (event : RunEvent)

namespace Deed

/-- The text that a deed gives to the file at a path. -/
def textFor? (path : String) : Deed → Option String
  | .write other text => if other = path then some text else none
  | .log _ => none

/-- The path of the file that is written. -/
def path? : Deed → Option String
  | .write path _ => some path
  | .log _ => none

/-- The event that is logged. -/
def event? : Deed → Option RunEvent
  | .write .. => none
  | .log event => some event

/-- The last text that deeds give to the file at a path. -/
def lastText? (deeds : List Deed) (path : String) : Option String :=
  deeds.reverse.findSome? (textFor? path)

/-- The paths of the files that are written, in order. -/
def paths (deeds : List Deed) : List String := deeds.filterMap path?

/-- The events that are logged, in order. -/
def events (deeds : List Deed) : List RunEvent := deeds.filterMap event?

theorem textFor?_write (path other text : String) :
    textFor? path (.write other text) = if other = path then some text else none := rfl

theorem textFor?_log (path : String) (event : RunEvent) : textFor? path (.log event) = none := rfl

theorem lastText?_append_log (deeds : List Deed) (event : RunEvent) (path : String) :
    lastText? (deeds ++ [.log event]) path = lastText? deeds path := by
  rw [lastText?, List.reverse_append, List.reverse_singleton, List.singleton_append,
    List.findSome?_cons_of_isNone (by rw [textFor?_log]; rfl), lastText?]

theorem lastText?_append_write (deeds : List Deed) (path text : String) :
    lastText? (deeds ++ [.write path text]) path = some text := by
  simp [lastText?, textFor?]

theorem lastText?_append_write_of_ne (deeds : List Deed) {path other : String} (h : path ≠ other)
    (text : String) : lastText? (deeds ++ [.write path text]) other = lastText? deeds other := by
  simp [lastText?, textFor?, h]

theorem paths_append (deeds later : List Deed) :
    paths (deeds ++ later) = paths deeds ++ paths later :=
  List.filterMap_append

theorem events_append (deeds later : List Deed) :
    events (deeds ++ later) = events deeds ++ events later :=
  List.filterMap_append

theorem events_cons_log (event : RunEvent) (deeds : List Deed) :
    events (.log event :: deeds) = event :: events deeds := rfl

theorem paths_cons_log (event : RunEvent) (deeds : List Deed) :
    paths (.log event :: deeds) = paths deeds := rfl

theorem events_flatMap {α : Type} (items : List α) (f : α → List Deed) :
    events (items.flatMap f) = items.flatMap fun item => events (f item) :=
  List.filterMap_flatMap

theorem paths_flatMap {α : Type} (items : List α) (f : α → List Deed) :
    paths (items.flatMap f) = items.flatMap fun item => paths (f item) :=
  List.filterMap_flatMap

theorem mem_paths {deeds : List Deed} {path : String} :
    path ∈ paths deeds ↔ ∃ text, .write path text ∈ deeds := by
  unfold paths
  rw [List.mem_filterMap]
  constructor
  · rintro ⟨deed, hmem, hpath⟩
    cases deed with
    | write other text =>
      cases hpath
      exact ⟨text, hmem⟩
    | log event => cases hpath
  · rintro ⟨text, hmem⟩
    exact ⟨_, hmem, rfl⟩

theorem mem_events {deeds : List Deed} {event : RunEvent} :
    event ∈ events deeds ↔ .log event ∈ deeds := by
  unfold events
  rw [List.mem_filterMap]
  constructor
  · rintro ⟨deed, hmem, hevent⟩
    cases deed with
    | write => cases hevent
    | log other =>
      cases hevent
      exact hmem
  · exact fun hmem => ⟨_, hmem, rfl⟩

/-- A file that is not written gets no text. -/
theorem lastText?_eq_none {deeds : List Deed} {path : String} (h : path ∉ paths deeds) :
    lastText? deeds path = none := by
  unfold lastText?
  rw [List.findSome?_eq_none_iff]
  intro deed hmem
  rw [List.mem_reverse] at hmem
  cases deed with
  | write other text =>
    refine if_neg ?_
    rintro rfl
    exact h (mem_paths.mpr ⟨text, hmem⟩)
  | log event => rfl

/-- A file that is only ever given one text gets that one. -/
theorem lastText?_eq_some {deeds : List Deed} {path text : String} (hmem : path ∈ paths deeds)
    (honly : ∀ text', .write path text' ∈ deeds → text' = text) :
    lastText? deeds path = some text := by
  cases hlast : lastText? deeds path with
  | none =>
    obtain ⟨text', hmem'⟩ := mem_paths.mp hmem
    unfold lastText? at hlast
    rw [List.findSome?_eq_none_iff] at hlast
    have hnone := hlast _ (List.mem_reverse.mpr hmem')
    simp [textFor?] at hnone
  | some text' =>
    obtain ⟨deed, hdeed, htext⟩ := List.exists_of_findSome?_eq_some hlast
    rw [List.mem_reverse] at hdeed
    cases deed with
    | write other text'' =>
      rw [textFor?_write] at htext
      split at htext
      · next heq =>
        subst heq
        cases htext
        rw [honly _ hdeed]
      · cases htext
    | log event => cases htext

end Deed

/-- Whether an event says that a file was modified. -/
def RunEvent.isModified : RunEvent → Bool
  | .modified .. => true
  | _ => false

/-- Whether an event is a finding. -/
def RunEvent.isFound : RunEvent → Bool
  | .found .. => true
  | _ => false

/-- Whether an event is the end of a run. -/
def RunEvent.isCompleted : RunEvent → Bool
  | .completed .. => true
  | _ => false

/-- The new text for a file that is to be modified. -/
def FilePlan.newText? (file : FilePlan) : Option String :=
  if file.action = .modify then file.after else none

namespace Run

variable (setting : Setting) (run : Run)

/-- The events of a file: that it was modified, if that is its plan, and its findings. -/
def fileEvents (file : FilePlan) : List RunEvent :=
  (file.newText?.toList.map fun text => modifiedEvent setting file (Digest.ofText text)) ++
    file.findings.map (findingEvent setting file)

/-- The event at the end of a run. -/
def endEvent (plan : Plan) : RunEvent :=
  .completed setting.runName plan.modified plan.kept plan.findings.length

/-- The events of a run, in order. -/
def events (plan : Plan) : List RunEvent :=
  startEvent setting run :: (plan.files.flatMap (fileEvents setting) ++ [endEvent setting plan])

/-- The deeds that modify a file and log that. -/
def writing (file : FilePlan) (text : String) : List Deed :=
  [.write file.path text, .log (modifiedEvent setting file (Digest.ofText text))]

/-- The deeds that settle a file. -/
def fileDeeds (file : FilePlan) : List Deed :=
  (file.newText?.toList.flatMap (writing setting file)) ++
    file.findings.map fun finding => .log (findingEvent setting file finding)

/-- The deeds of a run, in order. -/
def deeds (plan : Plan) : List Deed :=
  .log (startEvent setting run) ::
    (plan.files.flatMap (fileDeeds setting) ++ [.log (endEvent setting plan)])

variable {setting run}

section Deeds

variable {file : FilePlan} {plan : Plan}

theorem events_fileDeeds : Deed.events (fileDeeds setting file) = fileEvents setting file := by
  unfold fileDeeds fileEvents Deed.events
  rw [List.filterMap_append]
  congr 1
  · cases file.newText? <;> rfl
  · rw [List.filterMap_map]
    exact congrFun List.filterMap_eq_map _

/-- The events that a run logs. -/
theorem events_deeds : Deed.events (run.deeds setting plan) = run.events setting plan := by
  unfold deeds events
  rw [Deed.events_cons_log, Deed.events_append, Deed.events_flatMap, Deed.events_cons_log]
  congr 2
  exact congrArg (List.flatMap · plan.files) (funext fun file => events_fileDeeds)

theorem paths_fileDeeds :
    Deed.paths (fileDeeds setting file) = if file.newText?.isSome then [file.path] else [] := by
  unfold fileDeeds Deed.paths
  rw [List.filterMap_append]
  have hfindings : (file.findings.map fun finding =>
      Deed.log (findingEvent setting file finding)).filterMap Deed.path? = [] := by
    rw [List.filterMap_map]
    exact List.filterMap_eq_nil_iff.mpr fun _ _ => rfl
  rw [hfindings]
  cases file.newText? <;> rfl

theorem paths_deeds : Deed.paths (run.deeds setting plan) =
    (plan.files.filter fun file => file.newText?.isSome).map (·.path) := by
  unfold deeds
  rw [Deed.paths_cons_log, Deed.paths_append, Deed.paths_flatMap]
  rw [show Deed.paths [.log (endEvent setting plan)] = [] from rfl, List.append_nil]
  induction plan.files with
  | nil => rfl
  | cons file rest ih =>
    rw [List.flatMap_cons, ih, paths_fileDeeds]
    cases h : file.newText?.isSome <;> simp [h]

/-- What is written to the files of a plan is the text that is planned for them. -/
theorem write_mem_deeds {path text : String} :
    .write path text ∈ run.deeds setting plan ↔
      ∃ file ∈ plan.files, file.path = path ∧ file.newText? = some text := by
  unfold deeds fileDeeds writing
  simp only [List.mem_cons, List.mem_append, List.mem_flatMap, List.mem_map, Option.mem_toList,
    reduceCtorEq, false_or, or_false, and_false, exists_false, List.not_mem_nil]
  constructor
  · rintro ⟨file, hmem, text', htext, h⟩
    cases h
    exact ⟨file, hmem, rfl, htext⟩
  · rintro ⟨file, hmem, rfl, htext⟩
    exact ⟨file, hmem, text, htext, rfl⟩

/-- For a file that is settled, the log says that it was modified if it was written. -/
theorem length_paths_fileDeeds (file : FilePlan) :
    (Deed.paths (fileDeeds setting file)).length =
      (Deed.events (fileDeeds setting file)).countP RunEvent.isModified := by
  rw [paths_fileDeeds, events_fileDeeds, fileEvents, List.countP_append, List.countP_map,
    List.countP_map]
  have hfindings :
      file.findings.countP (RunEvent.isModified ∘ findingEvent setting file) = 0 :=
    List.countP_eq_zero.mpr fun _ _ h => by cases h
  rw [hfindings]
  cases file.newText? <;> rfl

theorem length_paths_flatMap (files : List FilePlan) :
    (Deed.paths (files.flatMap (fileDeeds setting))).length =
      (Deed.events (files.flatMap (fileDeeds setting))).countP RunEvent.isModified := by
  rw [Deed.paths_flatMap, Deed.events_flatMap, List.length_flatMap, List.countP_flatMap]
  exact congrArg List.sum (List.map_congr_left fun file _ => length_paths_fileDeeds file)

/-- The log of a whole run names each file that is modified once. -/
theorem countP_isModified_events :
    (run.events setting plan).countP RunEvent.isModified =
      plan.files.countP fun file => file.newText?.isSome := by
  have hpaths : (Deed.paths (run.deeds setting plan)).length =
      plan.files.countP fun file => file.newText?.isSome := by
    rw [paths_deeds, List.length_map, ← List.countP_eq_length_filter]
  rw [← hpaths, events, deeds, Deed.paths_cons_log, Deed.paths_append, List.length_append,
    length_paths_flatMap, List.countP_cons, List.countP_append, Deed.events_flatMap]
  simp only [events_fileDeeds]
  rfl

/-- The log of a whole run names each finding once. -/
theorem countP_isFound_events :
    (run.events setting plan).countP RunEvent.isFound = plan.findings.length := by
  have hfile : ∀ file : FilePlan,
      (fileEvents setting file).countP RunEvent.isFound = file.findings.length := by
    intro file
    unfold fileEvents
    rw [List.countP_append, List.countP_map, List.countP_map]
    have hmodified : file.newText?.toList.countP (RunEvent.isFound ∘ fun text =>
        modifiedEvent setting file (Digest.ofText text)) = 0 :=
      List.countP_eq_zero.mpr fun _ _ h => by cases h
    rw [hmodified, Nat.zero_add]
    exact List.countP_eq_length.mpr fun _ _ => rfl
  rw [events, List.countP_cons, List.countP_append, List.countP_flatMap, Plan.findings,
    List.length_flatMap]
  simp only [List.length_map]
  exact congrArg List.sum (List.map_congr_left fun file _ => hfile file)

end Deeds

/-! ## Runs that are cut short -/

section Prefix

/-- A prefix of two lists in a row ends in the first or in the second. -/
theorem prefix_append_cases {α : Type} {part first second : List α} (h : part <+: first ++ second) :
    part <+: first ∨ ∃ more, part = first ++ more ∧ more <+: second := by
  obtain ⟨rest, hrest⟩ := h
  rcases List.append_eq_append_iff.mp hrest with ⟨more, h, -⟩ | ⟨more, h, h'⟩
  · exact .inl ⟨more, h.symm⟩
  · exact .inr ⟨more, h, rest, h'.symm⟩

variable {plan : Plan} {done : List Deed}

/-- A run that is cut short has not begun, or it has settled some files and was at work on the
next. -/
theorem prefix_flatMap {files : List FilePlan} (h : done <+: files.flatMap (fileDeeds setting)) :
    ∃ settled rest part, files = settled ++ rest ∧
      done = settled.flatMap (fileDeeds setting) ++ part ∧
        (part = [] ∨ ∃ file ∈ rest, part <+: fileDeeds setting file) := by
  induction files generalizing done with
  | nil => exact ⟨[], [], done, rfl, rfl, .inl (List.prefix_nil.mp h)⟩
  | cons file files ih =>
    rw [List.flatMap_cons] at h
    rcases prefix_append_cases h with hpart | ⟨more, rfl, hmore⟩
    · exact ⟨[], file :: files, done, rfl, rfl, .inr ⟨file, List.mem_cons_self, hpart⟩⟩
    · obtain ⟨settled, rest, part, rfl, rfl, hpart⟩ := ih hmore
      refine ⟨file :: settled, rest, part, rfl, ?_, hpart⟩
      rw [List.flatMap_cons, List.append_assoc]

theorem prefix_deeds (h : done <+: run.deeds setting plan) (hne : done ≠ run.deeds setting plan) :
    done = [] ∨ ∃ part, done = .log (startEvent setting run) :: part ∧
      part <+: plan.files.flatMap (fileDeeds setting) := by
  unfold deeds at h hne
  rcases List.prefix_cons_iff.mp h with rfl | ⟨part, rfl, hpart⟩
  · exact .inl rfl
  · refine .inr ⟨part, rfl, ?_⟩
    rcases List.prefix_concat_iff.mp hpart with rfl | hpart
    · exact absurd rfl hne
    · exact hpart

/-- A file of a plan that was written has been given its new text. -/
theorem lastText?_of_begun (h : done <+: run.deeds setting plan)
    (hnodup : (plan.files.map (·.path)).Nodup) {file : FilePlan} (hfile : file ∈ plan.files) :
    Deed.lastText? done file.path =
      if file.path ∈ Deed.paths done then file.newText? else none := by
  split
  · next hmem =>
    have hown : ∀ text, .write file.path text ∈ done → file.newText? = some text := by
      intro text hwrite
      obtain ⟨other, hother, hpath, htext⟩ := write_mem_deeds.mp (h.subset hwrite)
      rw [← List.inj_on_of_nodup_map hnodup hother hfile hpath]
      exact htext
    obtain ⟨text, hwrite⟩ := Deed.mem_paths.mp hmem
    rw [hown text hwrite]
    refine Deed.lastText?_eq_some hmem fun text' hwrite' => ?_
    exact Option.some.inj ((hown text' hwrite').symm.trans (hown text hwrite))
  · next hmem => exact Deed.lastText?_eq_none hmem

/-- Once all deeds of a plan are done, each file was given its new text, if it has one. -/
theorem lastText?_deeds (hnodup : (plan.files.map (·.path)).Nodup) {file : FilePlan}
    (hfile : file ∈ plan.files) :
    Deed.lastText? (run.deeds setting plan) file.path = file.newText? := by
  rw [lastText?_of_begun (List.prefix_refl _) hnodup hfile]
  split
  · rfl
  · next hunwritten =>
    refine (Option.not_isSome_iff_eq_none.mp fun hnew => hunwritten ?_).symm
    rw [paths_deeds]
    exact List.mem_map_of_mem (List.mem_filter.mpr ⟨hfile, hnew⟩)

/-- A file is written before the log says that it was modified. -/
theorem write_mem_of_modified_mem {file : FilePlan} {part : List Deed}
    (h : part <+: fileDeeds setting file) {event : RunEvent} (hevent : event.isModified = true)
    (hmem : .log event ∈ part) :
    ∃ text, file.newText? = some text ∧ .write file.path text ∈ part ∧
      event = modifiedEvent setting file (Digest.ofText text) := by
  unfold fileDeeds at h
  cases htext : file.newText? with
  | none =>
    -- Only findings are logged for a file that stays as it is.
    obtain ⟨finding, -, hfinding⟩ := List.mem_map.mp (by simpa [htext] using h.subset hmem)
    cases hfinding
    cases hevent
  | some text =>
    rw [htext] at h
    refine ⟨text, rfl, ?_⟩
    have hfirst : .write file.path text ∈ part := by
      cases part with
      | nil => cases hmem
      | cons first rest =>
        obtain ⟨rfl, -⟩ := List.cons_prefix_cons.mp h
        exact List.mem_cons_self
    refine ⟨hfirst, ?_⟩
    have hin := h.subset hmem
    simp only [writing, Option.toList_some, List.flatMap_cons, List.flatMap_nil, List.mem_append,
      List.mem_cons, List.not_mem_nil, or_false, reduceCtorEq, false_or, Deed.log.injEq,
      List.mem_map] at hin
    rcases hin with hin | ⟨finding, -, rfl⟩
    · exact hin
    · cases hevent

theorem length_paths_part {file : FilePlan} {part : List Deed}
    (h : part <+: fileDeeds setting file) :
    (Deed.paths part).length ≤ (Deed.events part).countP RunEvent.isModified + 1 := by
  have hle : (Deed.paths part).length ≤ (Deed.paths (fileDeeds setting file)).length :=
    (h.filterMap Deed.path?).length_le
  have hone : (Deed.paths (fileDeeds setting file)).length ≤ 1 := by
    rw [paths_fileDeeds]
    split <;> simp
  omega

/-- At most one file that was written is not named in the log yet. -/
theorem length_paths_le {files : List FilePlan} (h : done <+: files.flatMap (fileDeeds setting)) :
    (Deed.paths done).length ≤ (Deed.events done).countP RunEvent.isModified + 1 := by
  obtain ⟨settled, rest, part, -, rfl, hpart⟩ := prefix_flatMap h
  have hrest : (Deed.paths part).length ≤ (Deed.events part).countP RunEvent.isModified + 1 := by
    rcases hpart with rfl | ⟨file, -, hpart⟩
    · exact Nat.zero_le _
    · exact length_paths_part hpart
  rw [Deed.paths_append, Deed.events_append, List.length_append, List.countP_append,
    length_paths_flatMap]
  omega

/-- The log names a file only after the file was written. -/
theorem path_mem_of_modified_mem {files : List FilePlan}
    (h : done <+: files.flatMap (fileDeeds setting)) {event : RunEvent}
    (hevent : event.isModified = true) (hmem : event ∈ Deed.events done) :
    ∃ file ∈ files, ∃ text, file.newText? = some text ∧ .write file.path text ∈ done ∧
      event = modifiedEvent setting file (Digest.ofText text) := by
  rw [Deed.mem_events] at hmem
  obtain ⟨settled, rest, part, rfl, rfl, hpart⟩ := prefix_flatMap h
  rcases List.mem_append.mp hmem with hmem | hmem
  · obtain ⟨file, hfile, hmem⟩ := List.mem_flatMap.mp hmem
    obtain ⟨text, htext, hwrite, he⟩ :=
      write_mem_of_modified_mem (List.prefix_refl _) hevent hmem
    exact ⟨file, List.mem_append_left _ hfile, text, htext,
      List.mem_append_left _ (List.mem_flatMap.mpr ⟨file, hfile, hwrite⟩), he⟩
  · rcases hpart with rfl | ⟨file, hfile, hpart⟩
    · cases hmem
    · obtain ⟨text, htext, hwrite, he⟩ := write_mem_of_modified_mem hpart hevent hmem
      exact ⟨file, List.mem_append_right _ hfile, text, htext, List.mem_append_right _ hwrite, he⟩

/-- The end of a run is not logged while files are settled. -/
theorem not_completed {files : List FilePlan} (h : done <+: files.flatMap (fileDeeds setting))
    {event : RunEvent} (hmem : event ∈ Deed.events done) : event.isCompleted = false := by
  have hin := (h.filterMap Deed.event?).subset hmem
  obtain ⟨file, -, hfile⟩ : ∃ file ∈ files, event ∈ fileEvents setting file := by
    have := Deed.events_flatMap files (fileDeeds setting)
    unfold Deed.events at this
    rw [this] at hin
    obtain ⟨file, hfile, hin⟩ := List.mem_flatMap.mp hin
    exact ⟨file, hfile, events_fileDeeds ▸ hin⟩
  unfold fileEvents at hfile
  rcases List.mem_append.mp hfile with hfile | hfile
  · obtain ⟨text, -, rfl⟩ := List.mem_map.mp hfile
    rfl
  · obtain ⟨finding, -, rfl⟩ := List.mem_map.mp hfile
    rfl

/-! ### Runs that are cut short -/

section

variable (h : done <+: run.deeds setting plan) (hne : done ≠ run.deeds setting plan)
include h hne

theorem not_completed_of_begun {event : RunEvent} (hmem : event ∈ Deed.events done) :
    event.isCompleted = false := by
  rcases prefix_deeds h hne with rfl | ⟨part, rfl, hpart⟩
  · cases hmem
  · rcases List.mem_cons.mp hmem with rfl | hmem
    · rfl
    · exact not_completed hpart hmem

theorem exists_write_of_begun {event : RunEvent} (hevent : event.isModified = true)
    (hmem : event ∈ Deed.events done) :
    ∃ file ∈ plan.files, ∃ text, file.newText? = some text ∧ .write file.path text ∈ done ∧
      event = modifiedEvent setting file (Digest.ofText text) := by
  rcases prefix_deeds h hne with rfl | ⟨part, rfl, hpart⟩
  · cases hmem
  · rcases List.mem_cons.mp hmem with rfl | hmem
    · cases hevent
    · obtain ⟨file, hfile, text, htext, hwrite, he⟩ := path_mem_of_modified_mem hpart hevent hmem
      exact ⟨file, hfile, text, htext, List.mem_cons_of_mem _ hwrite, he⟩

theorem length_paths_of_begun :
    (Deed.paths done).length ≤ (Deed.events done).countP RunEvent.isModified + 1 := by
  rcases prefix_deeds h hne with rfl | ⟨part, rfl, hpart⟩
  · exact Nat.zero_le _
  · rw [Deed.events_cons_log, Deed.paths_cons_log,
      List.countP_cons_of_neg (by simp [startEvent, RunEvent.isModified])]
    exact length_paths_le hpart

/-- Nothing is written before the start is logged. -/
theorem paths_eq_nil_of_begun (hnone : Deed.events done = []) : Deed.paths done = [] := by
  rcases prefix_deeds h hne with rfl | ⟨part, rfl, hpart⟩
  · rfl
  · cases hnone

end

end Prefix

end Run

end WorkflowRecipes
