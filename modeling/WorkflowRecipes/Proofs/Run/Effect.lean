import WorkflowRecipes.Proofs.FileTree.Replacement
import WorkflowRecipes.Proofs.Plan.Discovery
import WorkflowRecipes.Proofs.Run.Deeds

/-!
# What deeds do to a tree

`Run.Effect` says what a tree looks like after some deeds of a run: the files that were found hold
the texts they were given last, the log holds the lines of the events, and all else is as before,
but for new directories on the way to the log.

Results:
1. `Effect.write`, `Effect.log`: what one deed does.
2. `log_ends`: to log an event is that deed, or it fails and is none.
-/

namespace WorkflowRecipes

/-- The octets of the file at a route; there are none if no file stands there. -/
def FileTree.contentAt (tree : FileTree) (route : Route) : ByteArray :=
  match tree.get? route with
  | some (.file content _) => content
  | _ => .empty

/-- The lines of events in a log. -/
def RunEvent.lines (time : String) (events : List RunEvent) : ByteArray :=
  (String.join (events.map (line time))).toUTF8

/-- The tree in which a log is opened: the directories on the way to it are made. -/
def RunEvent.prepare (tree : FileTree) (home : Route) (path : String) :
    Except FileFault FileTree :=
  match Path.parent? path with
  | some parent => tree.makeAllDirectories home parent
  | none => .ok tree

namespace FileTree

theorem contentAt_of_file {tree : FileTree} {route : Route} {content : ByteArray} {mode : Nat}
    (h : tree.get? route = some (.file content mode)) : tree.contentAt route = content := by
  simp only [contentAt, h]

theorem contentAt_of_none {tree : FileTree} {route : Route} (h : tree.get? route = none) :
    tree.contentAt route = .empty := by
  simp only [contentAt, h]

theorem contentAt_put_of_ne {tree : FileTree} {route other : Route} (h : route ≠ [])
    (hne : route ≠ other) (entry : FileEntry) :
    (tree.put route entry).contentAt other = tree.contentAt other := by
  simp only [contentAt, get?_put_of_ne h hne]

theorem Grows.contentAt {old new : FileTree} (h : old.Grows new) (route : Route) :
    new.contentAt route = old.contentAt route := by
  rcases h route with h | ⟨h, mode, hm⟩
  · simp only [FileTree.contentAt, h]
  · simp only [FileTree.contentAt, h, hm]

end FileTree

namespace RunEvent

theorem lines_nil (time : String) : lines time [] = .empty := rfl

theorem lines_append (time : String) (events : List RunEvent) (event : RunEvent) :
    lines time (events ++ [event]) = lines time events ++ (event.line time).toUTF8 := by
  unfold lines
  rw [List.map_append, String.join_append, List.map_singleton, String.join_cons, String.join_nil,
    String.append_empty]
  exact String.toByteArray_append

theorem prepare_grows {tree ready : FileTree} {home : Route} {path : String}
    (h : prepare tree home path = .ok ready) : tree.Grows ready := by
  unfold prepare at h
  split at h
  · exact FileTree.makeAllDirectories_grows h
  · cases h
    exact .refl tree

end RunEvent

namespace Run

/-- Where the log of a run is, once the directories on the way to it are made. -/
def logRoute? (run : Run) (tree : FileTree) (home : Route) : Option Route :=
  run.policy.eventLog.bind fun path =>
    match RunEvent.prepare tree home (Path.join run.root path) with
    | .ok ready => (ready.resolve home true (Path.join run.root path)).toOption
    | .error _ => none

/-- The tree at the start of a run is well-formed, and the log is not one of the files that are
found, nor a link to one. -/
structure Ground (run : Run) (start : FileTree) (home : Route) : Prop where
  wellFormed : start.WellFormed
  logApart : ∀ path ∈ Discover.files start home run.root, ∀ route,
    start.resolve home true (Path.join run.root path) = .ok route →
      run.logRoute? start home ≠ some route

/-- What some deeds of a run make of the tree at its start. -/
structure Effect (run : Run) (time : String) (start : FileTree) (home : Route) (done : List Deed)
    (tree : FileTree) : Prop where
  held : start.Extends tree
  file : ∀ path ∈ Discover.files start home run.root, ∀ route content mode,
    start.resolve home true (Path.join run.root path) = .ok route →
      start.get? route = some (.file content mode) →
        tree.get? route =
          some (.file (((Deed.lastText? done path).map String.toUTF8).getD content) mode)
  log : ∀ route, run.logRoute? start home = some route →
    tree.contentAt route = start.contentAt route ++ RunEvent.lines time (Deed.events done)
  other : ∀ route, (∀ path ∈ Discover.files start home run.root,
      start.resolve home true (Path.join run.root path) ≠ .ok route) →
    run.logRoute? start home ≠ some route →
      tree.get? route = start.get? route ∨
        start.get? route = none ∧ ∃ mode, tree.get? route = some (.directory mode)

variable {run : Run} {time : String} {start tree : FileTree} {home : Route} {done : List Deed}

namespace Effect

theorem refl (run : Run) (time : String) (start : FileTree) (home : Route) :
    Effect run time start home [] start where
  held := .refl start
  file _ _ _ _ _ _ h := h
  log route _ := by
    rw [show Deed.events [] = [] from rfl, RunEvent.lines_nil, ByteArray.append_empty]
  other _ _ _ := .inl rfl

/-- New directories change nothing. -/
theorem grows (h : Effect run time start home done tree) {after : FileTree}
    (hgrows : tree.Grows after) : Effect run time start home done after where
  held := h.held.trans hgrows.extends
  file path hpath route content mode hr hf :=
    hgrows.get?_file_iff.mpr (h.file path hpath route content mode hr hf)
  log route hr := by rw [hgrows.contentAt, h.log route hr]
  other route hfile hlog := by
    rcases hgrows route with hsame | ⟨hnone, hdirectory⟩
    · rw [hsame]
      exact h.other route hfile hlog
    · rcases h.other route hfile hlog with hsame | ⟨-, mode, hm⟩
      · exact .inr ⟨hsame ▸ hnone, hdirectory⟩
      · rw [hnone] at hm
        cases hm

/-- A file that is written gets the new text, and nothing else changes. -/
theorem write (ground : run.Ground start home) (h : Effect run time start home done tree)
    {path text : String} (hpath : path ∈ Discover.files start home run.root) {route : Route}
    {content : ByteArray} {mode : Nat}
    (hr : start.resolve home true (Path.join run.root path) = .ok route)
    (hf : start.get? route = some (.file content mode)) :
    Effect run time start home (done ++ [.write path text])
      (tree.put route (.file text.toUTF8 mode)) := by
  have hnow := h.file path hpath route content mode hr hf
  have hne := FileTree.ne_nil_of_get?_file hf
  refine ⟨h.held.trans (FileTree.extends_put_of_file hnow _ _), ?_, ?_, ?_⟩
  · intro path' hpath' route' content' mode' hr' hf'
    by_cases hroute : route = route'
    · subst hroute
      obtain rfl := Discover.route_inj ground.wellFormed hpath hpath' hr hr'
      rw [hf] at hf'
      cases hf'
      rw [FileTree.get?_put_self hne, Deed.lastText?_append_write]
      rfl
    · have hother : path ≠ path' := by
        rintro rfl
        rw [hr] at hr'
        exact hroute (Except.ok.inj hr')
      rw [FileTree.get?_put_of_ne hne hroute, Deed.lastText?_append_write_of_ne _ hother]
      exact h.file path' hpath' route' content' mode' hr' hf'
  · intro route' hlog
    have hroute : route ≠ route' := by
      rintro rfl
      exact ground.logApart path hpath _ hr hlog
    rw [FileTree.contentAt_put_of_ne hne hroute, h.log route' hlog, Deed.events_append]
    rw [show Deed.events [.write path text] = [] from rfl, List.append_nil]
  · intro route' hfile hlog
    have hroute : route ≠ route' := by
      rintro rfl
      exact hfile path hpath hr
    rw [FileTree.get?_put_of_ne hne hroute]
    exact h.other route' hfile hlog

/-- What is put where the log is makes no difference elsewhere. -/
theorem putLog (ground : run.Ground start home) (h : Effect run time start home done tree)
    {route : Route} (hlog : run.logRoute? start home = some route) (hne : route ≠ [])
    (held : ∀ entry, tree.get? route = some entry → ∃ content mode, entry = .file content mode)
    {done' : List Deed} (htext : ∀ path, Deed.lastText? done' path = Deed.lastText? done path)
    {content : ByteArray}
    (hcontent : content =
      start.contentAt route ++ RunEvent.lines time (Deed.events done')) (mode : Nat) :
    Effect run time start home done' (tree.put route (.file content mode)) := by
  refine ⟨?_, ?_, ?_, ?_⟩
  · refine h.held.trans ?_
    cases hentry : tree.get? route with
    | none => exact FileTree.extends_put_of_none hentry _
    | some entry =>
      obtain ⟨content, mode, rfl⟩ := held entry hentry
      exact FileTree.extends_put_of_file hentry _ _
  · intro path hpath route' content' mode' hr hf
    have hroute : route ≠ route' := by
      rintro rfl
      exact ground.logApart path hpath _ hr hlog
    rw [FileTree.get?_put_of_ne hne hroute, htext]
    exact h.file path hpath route' content' mode' hr hf
  · intro route' hlog'
    rw [hlog] at hlog'
    cases hlog'
    rw [FileTree.contentAt_of_file (FileTree.get?_put_self hne _), hcontent]
  · intro route' hfile hlog'
    have hroute : route ≠ route' := by
      rintro rfl
      exact hlog' hlog
    rw [FileTree.get?_put_of_ne hne hroute]
    exact h.other route' hfile hlog'

/-- A log that is opened where none was is empty. -/
theorem opened (ground : run.Ground start home) (h : Effect run time start home done tree)
    {route : Route} (hlog : run.logRoute? start home = some route)
    (hnone : tree.get? route = none) (mode : Nat) :
    Effect run time start home done (tree.put route (.file .empty mode)) := by
  refine h.putLog ground hlog (FileTree.ne_nil_of_get?_none hnone) ?_ (fun _ => rfl) ?_ mode
  · intro entry hentry
    rw [hnone] at hentry
    cases hentry
  · rw [← h.log route hlog, FileTree.contentAt_of_none hnone]

/-- An event that is logged adds its line to the log. -/
theorem appended (ground : run.Ground start home) (h : Effect run time start home done tree)
    {route : Route} (hlog : run.logRoute? start home = some route) {content : ByteArray}
    {mode : Nat} (hf : tree.get? route = some (.file content mode)) (event : RunEvent) :
    Effect run time start home (done ++ [.log event])
      (tree.put route (.file (content ++ (event.line time).toUTF8) mode)) := by
  refine h.putLog ground hlog (FileTree.ne_nil_of_get?_file hf) ?_
    (Deed.lastText?_append_log done event) ?_ mode
  · intro entry hentry
    rw [hf] at hentry
    exact ⟨content, mode, (Option.some.inj hentry).symm⟩
  · rw [Deed.events_append, show Deed.events [.log event] = [event] from rfl,
      RunEvent.lines_append, ← ByteArray.append_assoc, ← h.log route hlog,
      FileTree.contentAt_of_file hf]

/-- Where the path of a file that was found leads, and what stands there. -/
theorem lead (ground : run.Ground start home) (h : Effect run time start home done tree)
    {path : String} (hpath : path ∈ Discover.files start home run.root) :
    ∃ route content mode, start.resolve home true (Path.join run.root path) = .ok route ∧
      start.get? route = some (.file content mode) ∧
        (∀ followLast, tree.resolve home followLast (Path.join run.root path) = .ok route) ∧
          tree.get? route = some
            (.file (((Deed.lastText? done path).map String.toUTF8).getD content) mode) := by
  obtain ⟨route, content, mode, hr, hf⟩ := Discover.files_lead ground.wellFormed hpath
  exact ⟨route, content, mode, hr true, hf,
    fun followLast => FileTree.resolve_of_extends h.held (by rw [hf]; rfl) (hr followLast),
    h.file path hpath route content mode (hr true) hf⟩

/-- A file that was given a text holds it. -/
theorem readText (ground : run.Ground start home) (h : Effect run time start home done tree)
    {path text : String} (hpath : path ∈ Discover.files start home run.root)
    (htext : Deed.lastText? done path = some text) :
    tree.readText home (Path.join run.root path) = .ok text := by
  obtain ⟨route, content, mode, -, -, hlead, hnow⟩ := h.lead ground hpath
  rw [htext] at hnow
  exact FileTree.readText_of_file (hlead true) hnow

/-- A file that was given no text holds what it held. -/
theorem read (ground : run.Ground start home) (h : Effect run time start home done tree)
    {path : String} (hpath : path ∈ Discover.files start home run.root)
    (htext : Deed.lastText? done path = none) :
    tree.read home (Path.join run.root path) = start.read home (Path.join run.root path) := by
  obtain ⟨route, content, mode, hr, hf, hlead, hnow⟩ := h.lead ground hpath
  rw [htext] at hnow
  rw [FileTree.read_of_file (hlead true) hnow, FileTree.read_of_file hr hf]
  rfl

/-- The permission bits of the files that were found stay. -/
theorem mode? (ground : run.Ground start home) (h : Effect run time start home done tree)
    {path : String} (hpath : path ∈ Discover.files start home run.root) :
    tree.mode? home (Path.join run.root path) = start.mode? home (Path.join run.root path) := by
  obtain ⟨route, content, mode, hr, hf, hlead, hnow⟩ := h.lead ground hpath
  rw [FileTree.mode?_of_file (hlead true) hnow, FileTree.mode?_of_file hr hf]

end Effect

/-! ## Logging -/

/-- The log stands where its path leads, if the run has one. -/
def LogReady (run : Run) (start : FileTree) (home : Route) (tree : FileTree) : Prop :=
  ∀ path, run.policy.eventLog = some path → ∃ route content mode,
    run.logRoute? start home = some route ∧
      tree.resolve home true (Path.join run.root path) = .ok route ∧
        tree.get? route = some (.file content mode)

/-- The log will be opened at its place. -/
def LogLeads (run : Run) (start : FileTree) (home : Route) (tree : FileTree) : Prop :=
  ∀ path, run.policy.eventLog = some path → ∀ ready route,
    RunEvent.prepare tree home (Path.join run.root path) = .ok ready →
      ready.resolve home true (Path.join run.root path) = .ok route →
        run.logRoute? start home = some route

theorem logLeads_start (run : Run) (start : FileTree) (home : Route) :
    LogLeads run start home start := by
  intro path hpath ready route hready hr
  rw [logRoute?, hpath, Option.bind_some, hready]
  exact congrArg Except.toOption hr

theorem LogReady.leads (h : LogReady run start home tree) : LogLeads run start home tree := by
  intro path hpath ready route hready hr
  obtain ⟨route', content, mode, hlog, hr', hf⟩ := h path hpath
  have hsame := FileTree.resolve_of_extends (RunEvent.prepare_grows hready).extends
    (by rw [hf]; rfl) hr'
  rw [hr] at hsame
  rw [hlog, Except.ok.inj hsame]

theorem LogReady.of_extends (h : LogReady run start home tree) {after : FileTree}
    (hext : tree.Extends after) : LogReady run start home after := by
  intro path hpath
  obtain ⟨route, content, mode, hlog, hr, hf⟩ := h path hpath
  obtain ⟨content', mode', hf'⟩ := hext.file hf
  exact ⟨route, content', mode', hlog,
    FileTree.resolve_of_extends hext (by rw [hf]; rfl) hr, hf'⟩

open Disk

/-- The deeds that are done have had their effect, and the log is ready for more. -/
structure Stage (run : Run) (setting : Setting) (start : FileTree) (home : Route)
    (done : List Deed) (disk : Disk) : Prop where
  atHome : disk.home = home
  effect : Effect run setting.time start home done disk.tree
  logReady : LogReady run start home disk.tree

/-- The work failed when some deeds were done, but not because of findings. -/
structure Halted (run : Run) (setting : Setting) (start : FileTree) (home : Route)
    (done : List Deed) (fault : RunError) (disk : Disk) : Prop where
  atHome : disk.home = home
  effect : Effect run setting.time start home done disk.tree
  ne_findings : ∀ count, fault ≠ .findings count

theorem makeParent_ends (path : String) (disk : Disk) :
    Ends (RunEvent.makeParent path) disk (Either
      (fun _ after => after.home = disk.home ∧
        RunEvent.prepare disk.tree disk.home path = .ok after.tree)
      fun _ after => after.home = disk.home ∧ after.tree = disk.tree) := by
  unfold RunEvent.makeParent RunEvent.prepare
  cases Path.parent? path with
  | none => exact Ends.pure ⟨rfl, rfl⟩
  | some parent => exact Ends.blame (Ends.change (fun _ _ h => ⟨rfl, h⟩) fun _ _ => ⟨rfl, rfl⟩)

variable {setting : Setting} {disk : Disk}

/-- The log is opened at its place. -/
theorem openLog_ends (ground : run.Ground start home) (hhome : disk.home = home)
    (h : Effect run setting.time start home done disk.tree) {path : String}
    (hleads : ∀ route, disk.tree.resolve home true path = .ok route →
      run.logRoute? start home = some route) :
    Ends (blame LogFault.opening <| step fun tree home => tree.openFile home path) disk (Either
      (fun route after => after.home = home ∧
        Effect run setting.time start home done after.tree ∧
          run.logRoute? start home = some route ∧
            after.tree.resolve home true path = .ok route ∧
              ∃ content mode, after.tree.get? route = some (.file content mode))
      fun _ after => after.home = home ∧ Effect run setting.time start home done after.tree) := by
  refine Ends.blame (Ends.step ?_ fun _ _ => ⟨hhome, h⟩)
  intro route opened _ hopened
  rw [hhome] at hopened
  obtain ⟨hr, hcases⟩ := FileTree.openFile_cases hopened
  have hlog := hleads route hr
  rcases hcases with ⟨hfile, rfl⟩ | ⟨hnone, rfl⟩
  · exact ⟨hhome, h, hlog, hr, hfile⟩
  · exact ⟨hhome, h.opened ground hlog hnone _, hlog,
      FileTree.resolve_put_of_none hnone hr _ _, _, _,
      FileTree.get?_put_self (FileTree.ne_nil_of_get?_none hnone) _⟩

/-- To append an event to the log adds its line. If that fails, no line is added. -/
theorem append_ends (ground : run.Ground start home) (hhome : disk.home = home)
    (h : Effect run setting.time start home done disk.tree)
    (hleads : LogLeads run start home disk.tree) {path : String}
    (hpath : run.policy.eventLog = some path) (event : RunEvent) :
    Ends (event.append setting (Path.join run.root path)) disk (Either
      (fun _ => Stage run setting start home (done ++ [.log event]))
      (Halted run setting start home done)) := by
  refine Ends.blame (Ends.bind (makeParent_ends _ disk) ?_ ?_)
  · rintro ⟨⟩ ready ⟨hhome', hready⟩
    rw [hhome] at hhome' hready
    have hopen := openLog_ends ground hhome' (h.grows (RunEvent.prepare_grows hready))
      fun route => hleads path hpath ready.tree route hready
    refine hopen.bind ?_ ?_
    · rintro route opened ⟨hhome'', heffect, hlog, hr, content, mode, hf⟩
      refine Ends.blame (Ends.change ?_ fun _ _ => ⟨hhome'', heffect, fun _ h => by cases h⟩)
      intro after _ hafter
      cases hafter
      rw [FileTree.overContent_of_file hf]
      refine ⟨hhome'', heffect.appended ground hlog hf event, ?_⟩
      intro path' hpath'
      rw [hpath] at hpath'
      cases hpath'
      exact ⟨route, _, mode, hlog,
        FileTree.resolve_of_extends (FileTree.extends_put_of_file hf _ _) (by rw [hf]; rfl) hr,
        FileTree.get?_put_self (FileTree.ne_nil_of_get?_file hf) _⟩
    · rintro fault opened ⟨hhome'', heffect⟩
      exact ⟨hhome'', heffect, fun _ h => by cases h⟩
  · rintro fault after ⟨hhome', hsame⟩
    exact ⟨hhome'.trans hhome, hsame ▸ h, fun _ h => by cases h⟩

/-- To log an event adds its line to the log, if there is one. If that fails, no line is added. -/
theorem log_ends (ground : run.Ground start home) (hhome : disk.home = home)
    (h : Effect run setting.time start home done disk.tree)
    (hleads : LogLeads run start home disk.tree) (event : RunEvent) :
    Ends (run.log setting event) disk (Either
      (fun _ => Stage run setting start home (done ++ [.log event]))
      (Halted run setting start home done)) := by
  unfold log
  cases hpath : run.policy.eventLog with
  | some path => exact append_ends ground hhome h hleads hpath event
  | none =>
    refine Ends.pure ⟨hhome, ⟨h.held, ?_, ?_, h.other⟩, ?_⟩
    · intro path hp route content mode hr hf
      rw [Deed.lastText?_append_log]
      exact h.file path hp route content mode hr hf
    · intro route hlog
      rw [logRoute?, hpath] at hlog
      cases hlog
    · intro path hp
      rw [hpath] at hp
      cases hp

end Run

end WorkflowRecipes
