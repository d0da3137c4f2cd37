import WorkflowRecipes.Proofs.FileTree.Extension
import WorkflowRecipes.Proofs.FileTree.Work

/-!
# Replacing a file

The new content of a file goes to a temporary file, which then takes the place of what stands where
the path leads. A temporary file does not change where a path leads, because paths go through
directories and links only.

Results:
1. `resolve_iff_of_sameWays`: where paths lead depends on directories and links.
2. `mode?_put_temporary`: the permission bits that the temporary file is given.
3. `moveFile_ends`, `fillAndMove_ends`: what becomes of the temporary file.
4. `replaceFile_ends`: a file is replaced as a whole, or the tree is as it was, whichever step goes
   wrong. `replaceFile_of_file` is the case of a file that is there.
5. `replaceFile_atomic`: the entries of the tree after that.
-/

namespace WorkflowRecipes

namespace FileTree

variable {old new tree after : FileTree} {home source target route temporary : Route}
  {path : String} {followLast : Bool} {found : Route}

/-! ## Where paths lead -/

/-- Two trees have the same directories and the same links. -/
structure SameWays (old new : FileTree) : Prop where
  directory : ∀ route mode,
    old.get? route = some (.directory mode) ↔ new.get? route = some (.directory mode)
  link : ∀ route target, old.get? route = some (.link target) ↔ new.get? route = some (.link target)

theorem SameWays.symm (h : SameWays old new) : SameWays new old :=
  ⟨fun route mode => (h.directory route mode).symm, fun route target => (h.link route target).symm⟩

/-- A file where nothing stood is no way. -/
theorem sameWays_put_of_none (h : tree.get? route = none) (content : ByteArray) (mode : Nat) :
    SameWays tree (tree.put route (.file content mode)) := by
  have hne := ne_nil_of_get?_none h
  refine ⟨fun other mode' => ?_, fun other target => ?_⟩ <;>
  · rw [get?_put hne]
    split
    · next heq =>
      rw [← heq, h]
      exact iff_of_false nofun nofun
    · rfl

/-- Names lead where they led before, because each step goes through a directory or a link. -/
theorem Leads.of_sameWays {here : Route} {links : Nat} {names : List String} (h : SameWays old new)
    (hold : old.Leads followLast found links here names) :
    new.Leads followLast found links here names := by
  induction hold with
  | done => exact .done
  | stay hhere _ ih => exact .stay ((h.directory _ _).mp hhere) ih
  | up hhere _ ih => exact .up ((h.directory _ _).mp hhere) ih
  | down hhere hname hnext _ ih =>
    refine .down ((h.directory _ _).mp hhere) hname (fun target hlink => ?_) ih
    exact hnext target ((h.link _ target).mpr hlink)
  | through hhere hname hnext hmore _ ih =>
    exact .through ((h.directory _ _).mp hhere) hname ((h.link _ _).mp hnext) hmore ih
  | atLink hhere hname hnext hlast heq =>
    exact .atLink ((h.directory _ _).mp hhere) hname ((h.link _ _).mp hnext) hlast heq

theorem resolve_of_sameWays (h : SameWays old new)
    (hr : old.resolve home followLast path = .ok found) :
    new.resolve home followLast path = .ok found := by
  rw [resolve_eq_ok_iff] at hr ⊢
  exact ⟨hr.1, hr.2.of_sameWays h⟩

/-- Where a path leads depends on directories and links. -/
theorem resolve_iff_of_sameWays (h : SameWays old new) :
    new.resolve home followLast path = .ok found ↔ old.resolve home followLast path = .ok found :=
  ⟨resolve_of_sameWays h.symm, resolve_of_sameWays h⟩

/-! ## Permission bits -/

/-- The permission bits of an entry, if a path can lead to it through all links. -/
def entryMode? : FileEntry → Option Nat
  | .file _ mode | .directory mode => some mode
  | .link _ => none

theorem mode?_of_resolve (hr : tree.resolve home true path = .ok route) :
    tree.mode? home path = (tree.get? route).bind entryMode? := by
  rw [mode?, entry, hr]
  simp only [Except.bind]
  cases tree.get? route with
  | none => rfl
  | some entry => cases entry <;> rfl

theorem mode?_of_error (h : ∀ route, tree.resolve home true path ≠ .ok route) :
    tree.mode? home path = none := by
  cases hr : tree.resolve home true path with
  | error fault =>
    rw [mode?, entry, hr]
    rfl
  | ok route => exact absurd hr (h route)

theorem mode?_of_file {content : ByteArray} {mode : Nat}
    (hr : tree.resolve home true path = .ok route)
    (hfile : tree.get? route = some (.file content mode)) : tree.mode? home path = some mode := by
  rw [mode?_of_resolve hr, hfile]
  rfl

/-- The bits of what a path leads to, or else those of a temporary file, are not changed by that
file, even if the path leads to it. -/
theorem mode?_put_temporary (hnone : tree.get? temporary = none) (content : ByteArray)
    (mode : Nat) :
    ((tree.put temporary (.file content mode)).mode? home path).getD mode =
      (tree.mode? home path).getD mode := by
  have hways := sameWays_put_of_none hnone content mode
  cases hr : tree.resolve home true path with
  | error fault =>
    have hnever : ∀ route, tree.resolve home true path ≠ .ok route := by simp [hr]
    have hnever' : ∀ route,
        (tree.put temporary (.file content mode)).resolve home true path ≠ .ok route :=
      fun route h => hnever route ((resolve_iff_of_sameWays hways).mp h)
    rw [mode?_of_error hnever, mode?_of_error hnever']
  | ok route =>
    rw [mode?_of_resolve hr, mode?_of_resolve (resolve_of_sameWays hways hr),
      get?_put (ne_nil_of_get?_none hnone)]
    split
    · next heq =>
      rw [← heq, hnone]
      rfl
    · rfl

/-! ## Temporary files -/

theorem makeFile_cases (h : tree.makeFile home path = .ok (route, after)) :
    tree.get? route = none ∧ after = tree.put route (.file .empty privateMode) := by
  unfold makeFile at h
  cases hr : tree.resolve home false path with
  | error fault => simp [hr, Except.bind] at h
  | ok found =>
    simp only [hr, Except.bind] at h
    split at h
    · cases h
    · next hnone =>
      cases h
      exact ⟨by simpa using hnone, rfl⟩

/-- What is moved goes over a file or a link, or to where nothing stood. -/
theorem moveFile_cases {entry : FileEntry} (hsource : tree.get? source = some entry)
    (h : tree.moveFile home source path = .ok after) :
    ∃ target, tree.resolve home false path = .ok target ∧
      (∀ mode, tree.get? target ≠ some (.directory mode)) ∧
        after = (tree.erase source).put target entry := by
  unfold moveFile at h
  cases hr : tree.resolve home false path with
  | error fault => simp [hsource, hr] at h
  | ok target =>
    simp only [hsource, hr] at h
    split at h
    · cases h
    split at h
    · cases h
    · next hnot =>
      cases h
      exact ⟨target, rfl, hnot, rfl⟩

end FileTree

namespace Disk

variable {disk : Disk} {path : String} {tree : FileTree} {route temporary : Route}

/-! ## The file as a whole -/

/-- Where a path leads there is the new file, in place of what was there and is no directory. Its
permission bits are those of what the path led to through all links. Nothing else changed. -/
def Replaced (home : Route) (path : String) (content : ByteArray) (before after : FileTree) :
    Prop :=
  ∃ target, before.resolve home false path = .ok target ∧
    (∀ mode, before.get? target ≠ some (.directory mode)) ∧
      after = before.put target
        (.file content ((before.mode? home path).getD FileTree.privateMode))

/-- How it ends once there is a temporary file: what the path leads to is replaced, or all that
changed is the temporary file. -/
def MovedOrLeft (home : Route) (path : String) (content : ByteArray) (tree : FileTree)
    (temporary : Route) : Except FileFault Unit → Disk → Prop :=
  Either (fun _ after => after.home = home ∧ Replaced home path content tree after.tree)
    fun _ after => after.home = home ∧ ∃ entry, after.tree = tree.put temporary entry

/-- A temporary file that has the new content and the bits of the earlier file is moved, or it stays
where it is. -/
theorem moveFile_ends (content : ByteArray) (hnone : tree.get? temporary = none)
    (htree : disk.tree = tree.put temporary
      (.file content ((tree.mode? disk.home path).getD FileTree.privateMode))) :
    Ends (change fun t home => t.moveFile home temporary path) disk
      (MovedOrLeft disk.home path content tree temporary) := by
  refine Ends.change ?_ fun _ _ => ⟨rfl, _, htree⟩
  intro moved _ h
  rw [htree] at h
  have hne := FileTree.ne_nil_of_get?_none hnone
  have hways := FileTree.sameWays_put_of_none hnone content
    ((tree.mode? disk.home path).getD FileTree.privateMode)
  obtain ⟨target, hr, hnot, hmoved⟩ := FileTree.moveFile_cases (FileTree.get?_put_self hne _) h
  refine ⟨rfl, target, (FileTree.resolve_iff_of_sameWays hways).mp hr, ?_, ?_⟩
  · exact fun mode hdir => hnot mode ((hways.directory target mode).mp hdir)
  · rw [hmoved, FileTree.erase_put hnone]

/-- An empty temporary file is given the new content and the bits of the earlier file before it is
moved. -/
theorem fillAndMove_ends (content : ByteArray) (hnone : tree.get? temporary = none)
    (htree : disk.tree = tree.put temporary (.file .empty FileTree.privateMode)) :
    Ends (fillAndMove path content temporary) disk
      (MovedOrLeft disk.home path content tree temporary) := by
  have hne := FileTree.ne_nil_of_get?_none hnone
  have hfill : Ends (change fun t _ => .ok (t.overContent temporary fun _ => content)) disk
      (Either
        (fun _ after => after.home = disk.home ∧
          after.tree = tree.put temporary (.file content FileTree.privateMode))
        fun _ after => after.home = disk.home ∧
          ∃ entry, after.tree = tree.put temporary entry) := by
    refine Ends.change ?_ fun _ _ => ⟨rfl, _, htree⟩
    intro filled _ h
    cases h
    exact ⟨rfl, by rw [htree, FileTree.overContent_put hne]⟩
  refine hfill.bind ?_ fun _ _ h => h
  rintro ⟨⟩ filled ⟨hhome, hfilled⟩
  have hmode : (filled.tree.mode? filled.home path).getD FileTree.privateMode =
      (tree.mode? filled.home path).getD FileTree.privateMode := by
    rw [hfilled]
    exact FileTree.mode?_put_temporary hnone content _
  rw [← hhome]
  refine Ends.ask_bind ?_
  -- With no bits to copy the temporary file keeps its own, which are the wanted ones then.
  cases hbits : filled.tree.mode? filled.home path with
  | none =>
    refine moveFile_ends content hnone ?_
    rw [hfilled, ← hmode, hbits]
    rfl
  | some mode =>
    have hset : Ends (change fun t _ => .ok (t.setModeAt temporary mode)) filled (Either
        (fun _ after => after.home = filled.home ∧
          after.tree = tree.put temporary (.file content mode))
        fun _ after => after.home = filled.home ∧
          ∃ entry, after.tree = tree.put temporary entry) := by
      refine Ends.change ?_ fun _ _ => ⟨rfl, _, hfilled⟩
      intro t _ h
      cases h
      exact ⟨rfl, by rw [hfilled, FileTree.setModeAt_put hne]⟩
    refine Ends.bind hset ?_ fun _ _ h => h
    rintro ⟨⟩ ready ⟨hhome', hready⟩
    rw [← hhome']
    refine moveFile_ends content hnone ?_
    rw [hready, hhome', ← hmode, hbits]
    rfl

/-- A file is replaced as a whole. If that fails, the tree is as it was. -/
theorem replaceFile_ends (setting : Setting) (path text : String) (disk : Disk) :
    Ends (replaceFile setting path text) disk (Either
      (fun _ after => after.home = disk.home ∧
        Replaced disk.home path text.toUTF8 disk.tree after.tree)
      fun _ after => after.home = disk.home ∧ after.tree = disk.tree) := by
  let name := Path.join ((Path.parent? path).getD ".") setting.temporaryName
  let cause := WriteFault.temporary (Path.join setting.directory name)
  have hmake : Ends (blame cause <| step fun tree home => tree.makeFile home name) disk (Either
      (fun temporary after => after.home = disk.home ∧ disk.tree.get? temporary = none ∧
        after.tree = disk.tree.put temporary (.file .empty FileTree.privateMode))
      fun _ after => after.home = disk.home ∧ after.tree = disk.tree) := by
    refine Ends.blame (Ends.step ?_ fun _ _ => ⟨rfl, rfl⟩)
    intro temporary after _ h
    obtain ⟨hnone, rfl⟩ := FileTree.makeFile_cases h
    exact ⟨rfl, hnone, rfl⟩
  unfold replaceFile
  refine hmake.bind ?_ fun _ _ h => h
  rintro temporary made ⟨hhome, hnone, hmade⟩
  have hmove : Ends (fillAndMove path text.toUTF8 temporary) made
      (MovedOrLeft disk.home path text.toUTF8 disk.tree temporary) := by
    rw [← hhome]
    exact fillAndMove_ends _ hnone hmade
  refine Ends.blame (hmove.tryCatch (fun _ _ h => h) ?_)
  rintro fault moved ⟨hhome, entry, hmoved⟩
  refine Ends.modify_bind (Ends.throw ⟨hhome, ?_⟩)
  show moved.tree.erase temporary = disk.tree
  rw [hmoved, FileTree.erase_put hnone]

/-- A file that is there keeps its place and its permission bits. -/
theorem replaceFile_of_file (setting : Setting) (text : String) {content : ByteArray} {mode : Nat}
    (hlast : disk.tree.resolve disk.home false path = .ok route)
    (hthrough : disk.tree.resolve disk.home true path = .ok route)
    (hfile : disk.tree.get? route = some (.file content mode)) :
    Ends (replaceFile setting path text) disk (Either
      (fun _ after => after.home = disk.home ∧
        after.tree = disk.tree.put route (.file text.toUTF8 mode))
      fun _ after => after.home = disk.home ∧ after.tree = disk.tree) := by
  refine (replaceFile_ends setting path text disk).imp ?_
  rintro (fault | ⟨⟩) after h
  · exact h
  · obtain ⟨hhome, target, htarget, -, hafter⟩ := h
    rw [hlast] at htarget
    cases htarget
    rw [FileTree.mode?_of_file hthrough hfile] at hafter
    exact ⟨hhome, hafter⟩

theorem candid_replaceFile {harmless : FileFault → Prop} (setting : Setting) (path text : String) :
    Candid harmless (replaceFile setting path text) := by
  unfold replaceFile fillAndMove
  refine ((Candid.step _).blame _).bind fun temporary => Candid.blame (Candid.tryCatch ?_ ?_) _
  · refine (Candid.step _).bind fun _ => (Candid.ask _).bind fun mode => ?_
    cases mode with
    | some mode => exact (Candid.step _).bind fun _ => Candid.step _
    | none => exact Candid.step _
  · intro fault disk a after h
    rw [dropTemporary, outcome_modify_bind, outcome_throw] at h
    cases h

end Disk

end WorkflowRecipes
