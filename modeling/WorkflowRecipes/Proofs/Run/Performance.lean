import WorkflowRecipes.Proofs.Plan.Planning
import WorkflowRecipes.Proofs.Run.Effect

/-!
# Carrying out a plan

A piece of a run performs some deeds if it does all of them, or fails after some of the first. This
is preserved when pieces are put in a row, so that what a run does follows from what its pieces do.

Results:
1. `Performs.bind`, `Performs.mapM`: deeds of pieces in a row.
2. `modifyFile_performs`, `settle_performs`: the deeds for one file.
3. `carryOut_ends`: to carry out a plan is to do its deeds, or some of the first.
-/

namespace WorkflowRecipes.Run

open Disk

/-- The work failed after a strict prefix of deeds. -/
def HaltedWithin (run : Run) (setting : Setting) (start : FileTree) (home : Route)
    (done deeds : List Deed) (fault : RunError) (disk : Disk) : Prop :=
  ∃ part, part <+: deeds ∧ part ≠ deeds ∧
    Halted run setting start home (done ++ part) fault disk

/-- The work does all of some deeds and has a result, or fails after a strict prefix of them. -/
def Performs {α : Type} (run : Run) (setting : Setting) (start : FileTree) (home : Route)
    (work : Work RunError α) (value : α) (deeds : List Deed) : Prop :=
  ∀ done disk, Stage run setting start home done disk →
    Ends work disk (Either
      (fun a after => a = value ∧ Stage run setting start home (done ++ deeds) after)
      (HaltedWithin run setting start home done deeds))

variable {run : Run} {setting : Setting} {start : FileTree} {home : Route}

section Pieces

variable {α β : Type} {work : Work RunError α} {value : α} {deeds later done : List Deed}
  {fault : RunError} {disk : Disk}

theorem HaltedWithin.append (h : HaltedWithin run setting start home done deeds fault disk)
    (later : List Deed) : HaltedWithin run setting start home done (deeds ++ later) fault disk := by
  obtain ⟨part, hbegun, hne, hhalted⟩ := h
  refine ⟨part, List.prefix_append_of_prefix hbegun, ?_, hhalted⟩
  rintro rfl
  have hlength := hbegun.length_le
  rw [List.length_append] at hlength
  have hnil : later = [] := List.eq_nil_of_length_eq_zero (by omega)
  rw [hnil, List.append_nil] at hne
  exact hne rfl

theorem HaltedWithin.of_append
    (h : HaltedWithin run setting start home (done ++ deeds) later fault disk) :
    HaltedWithin run setting start home done (deeds ++ later) fault disk := by
  obtain ⟨part, hbegun, hne, hhalted⟩ := h
  refine ⟨deeds ++ part, (List.prefix_append_right_inj deeds).mpr hbegun, ?_, ?_⟩
  · exact fun heq => hne (List.append_cancel_left heq)
  · rw [← List.append_assoc]
    exact hhalted

theorem Performs.pure (value : α) :
    Performs run setting start home (Pure.pure value : Work RunError α) value [] := by
  intro done disk h
  refine Ends.pure ⟨rfl, ?_⟩
  rw [List.append_nil]
  exact h

/-- The deeds of two pieces in a row. -/
theorem Performs.bind (h : Performs run setting start home work value deeds)
    {next : α → Work RunError β} {value' : β}
    (hnext : Performs run setting start home (next value) value' later) :
    Performs run setting start home (work >>= next) value' (deeds ++ later) := by
  intro done disk hstage
  refine (h done disk hstage).bind ?_ fun fault after h => HaltedWithin.append h later
  rintro a after ⟨rfl, hstage'⟩
  refine (hnext _ after hstage').imp ?_
  rintro (fault | b) last hlast
  · exact HaltedWithin.of_append hlast
  · obtain ⟨hb, hstage''⟩ := hlast
    rw [List.append_assoc] at hstage''
    exact ⟨hb, hstage''⟩

theorem Performs.forM {f : α → Work RunError Unit} {g : α → List Deed} (items : List α)
    (h : ∀ item ∈ items, Performs run setting start home (f item) () (g item)) :
    Performs run setting start home (items.forM f) () (items.flatMap g) := by
  induction items with
  | nil => exact .pure ()
  | cons item rest ih =>
    rw [List.flatMap_cons]
    exact (h item List.mem_cons_self).bind
      (ih fun other hother => h other (List.mem_cons_of_mem _ hother))

theorem Performs.mapM {f : α → Work RunError β} {value : α → β} {g : α → List Deed}
    (items : List α)
    (h : ∀ item ∈ items, Performs run setting start home (f item) (value item) (g item)) :
    Performs run setting start home (items.mapM f) (items.map value) (items.flatMap g) := by
  induction items with
  | nil => exact .pure []
  | cons item rest ih =>
    rw [List.mapM_cons, List.flatMap_cons, List.map_cons]
    refine (h item List.mem_cons_self).bind ?_
    have hrest := ih fun other hother => h other (List.mem_cons_of_mem _ hother)
    rw [← List.append_nil (rest.flatMap g)]
    exact hrest.bind (Performs.pure _)

end Pieces

/-! ## The pieces of a run -/

theorem HaltedWithin.of_nil {done deeds : List Deed} {fault : RunError} {disk : Disk}
    (hne : deeds ≠ []) (h : Halted run setting start home done fault disk) :
    HaltedWithin run setting start home done deeds fault disk :=
  ⟨[], List.nil_prefix, hne.symm, by rwa [List.append_nil]⟩

/-- To log an event is one deed. -/
theorem log_performs (ground : run.Ground start home) (event : RunEvent) :
    Performs run setting start home (run.log setting event) () [.log event] := by
  intro done disk h
  refine (log_ends ground h.atHome h.effect h.logReady.leads event).imp ?_
  rintro (fault | ⟨⟩) after hafter
  · exact .of_nil (List.cons_ne_nil _ _) hafter
  · exact ⟨rfl, hafter⟩

/-- A file that is written holds the new text. -/
theorem write_ends (ground : run.Ground start home) {done : List Deed} {disk : Disk}
    (h : Stage run setting start home done disk) {path : String}
    (hpath : path ∈ Discover.files start home run.root) (text : String) :
    Ends (blame (RunError.write (Path.join run.root path)) <|
        replaceFile setting (Path.join run.root path) text) disk (Either
      (fun _ => Stage run setting start home (done ++ [.write path text]))
      (Halted run setting start home done)) := by
  obtain ⟨route, content, mode, hr, hf, hlead, hnow⟩ := h.effect.lead ground hpath
  rw [← h.atHome] at hlead
  have hreplace := replaceFile_of_file setting text (hlead false) (hlead true) hnow
  refine Ends.blame (hreplace.imp ?_)
  rintro (fault | ⟨⟩) after ⟨hhome, htree⟩
  · exact ⟨hhome.trans h.atHome, htree ▸ h.effect, fun _ h => by cases h⟩
  · refine ⟨hhome.trans h.atHome, ?_, ?_⟩
    · rw [htree]
      exact h.effect.write ground hpath hr hf
    · rw [htree]
      exact h.logReady.of_extends (FileTree.extends_put_of_file hnow _ _)

/-- What is read from a file that was just written is what was written. -/
theorem read_ends (ground : run.Ground start home) {done : List Deed} {disk : Disk}
    {path text : String} (hpath : path ∈ Discover.files start home run.root)
    (h : Stage run setting start home (done ++ [.write path text]) disk) :
    Ends (blame (RunError.read (Path.join run.root path)) <|
        Disk.read (Path.join run.root path)) disk (Either
      (fun content after => content = text.toUTF8 ∧
        Stage run setting start home (done ++ [.write path text]) after)
      (Halted run setting start home (done ++ [.write path text]))) := by
  obtain ⟨route, content, mode, -, -, hlead, hnow⟩ := h.effect.lead ground hpath
  rw [Deed.lastText?_append_write] at hnow
  refine Ends.blame (Ends.look ?_ fun _ _ => ⟨h.atHome, h.effect, fun _ h => by cases h⟩)
  intro content' _ hread
  rw [h.atHome, FileTree.read_of_file (hlead true) hnow] at hread
  cases hread
  exact ⟨rfl, h.atHome, h.effect, h.logReady⟩

/-- To modify a file is to write it and to log that. -/
theorem modifyFile_performs (ground : run.Ground start home) {file : FilePlan}
    (hpath : file.path ∈ Discover.files start home run.root) (text : String) :
    Performs run setting start home (run.modifyFile setting file text) ()
      (writing setting file text) := by
  intro done disk h
  unfold modifyFile
  refine (write_ends ground h hpath text).bind ?_ fun _ _ h => .of_nil (List.cons_ne_nil _ _) h
  rintro ⟨⟩ written hwritten
  have hinfix : ∀ fault after,
      Halted run setting start home (done ++ [.write file.path text]) fault after →
        HaltedWithin run setting start home done (writing setting file text) fault after := by
    intro fault after h
    exact ⟨[.write file.path text], ⟨_, rfl⟩, by simp [writing], h⟩
  refine (read_ends ground hpath hwritten).bind ?_ hinfix
  rintro content checked ⟨rfl, hchecked⟩
  show Ends (if Digest.ofText text ≠ Digest.ofText text then _ else
    run.log setting (modifiedEvent setting file (Digest.ofText text))) checked _
  rw [if_neg (not_not.mpr rfl)]
  refine (log_ends ground hchecked.atHome hchecked.effect hchecked.logReady.leads _).imp ?_
  rintro (fault | ⟨⟩) after hafter
  · exact hinfix fault after hafter
  · refine ⟨rfl, ?_⟩
    rw [List.append_assoc] at hafter
    exact hafter

/-- To settle a file is to modify it, if that is its plan, and to log its findings. -/
theorem settle_performs (ground : run.Ground start home) {file : FilePlan}
    (hpath : file.path ∈ Discover.files start home run.root) :
    Performs run setting start home (run.settle setting file) file.newText?.isSome
      (fileDeeds setting file) := by
  have hfindings : Performs run setting start home (do
      file.findings.forM fun finding => run.log setting (findingEvent setting file finding)
      return file.newText?.isSome) file.newText?.isSome
      (file.findings.map fun finding => .log (findingEvent setting file finding)) := by
    rw [← List.append_nil (file.findings.map _), List.map_eq_flatMap]
    exact (Performs.forM _ fun _ _ => log_performs ground _).bind (.pure _)
  unfold settle fileDeeds
  simp only [pure_bind]
  split
  · next text haction hafter =>
    have htext : file.newText? = some text := by rw [FilePlan.newText?, if_pos haction, hafter]
    rw [htext] at hfindings ⊢
    exact (modifyFile_performs ground hpath text).bind hfindings
  · next hkept =>
    have htext : file.newText? = none := by
      unfold FilePlan.newText?
      split
      · next haction => exact Option.eq_none_iff_forall_ne_some.mpr fun text => hkept text haction
      · rfl
    rw [htext] at hfindings ⊢
    exact hfindings

theorem count_settled {plan : Plan} (hfits : ∀ file ∈ plan.files, file.action = .modify ↔
    file.after.isSome) :
    (plan.files.map fun file => file.newText?.isSome).count true = plan.modified := by
  rw [List.count_eq_countP, List.countP_map, Plan.modified, Plan.count]
  refine List.countP_congr fun file hmem => ?_
  have hfit := hfits file hmem
  by_cases haction : file.action = .modify
  · simp [FilePlan.newText?, haction, hfit.mp haction]
  · simp [FilePlan.newText?, haction]

/-- To carry out a plan is to do its deeds. If it fails, some of the first were done. -/
theorem carryOut_ends (ground : run.Ground start home) {plan : Plan}
    (hpaths : plan.files.map (·.path) = Discover.files start home run.root)
    (hfits : ∀ file ∈ plan.files, file.action = .modify ↔ file.after.isSome)
    {disk : Disk} (hhome : disk.home = home) (htree : disk.tree = start) :
    Ends (run.carryOut setting plan) disk (Either
      (fun modified after => modified = plan.modified ∧
        Stage run setting start home (run.deeds setting plan) after)
      (HaltedWithin run setting start home [] (run.deeds setting plan))) := by
  have hstart : Effect run setting.time start home [] disk.tree := by
    rw [htree]
    exact .refl run setting.time start home
  have hleads : LogLeads run start home disk.tree := by
    rw [htree]
    exact logLeads_start run start home
  have hsettle : Performs run setting start home (plan.files.mapM (run.settle setting))
      (plan.files.map fun file => file.newText?.isSome)
      (plan.files.flatMap (fileDeeds setting)) := by
    refine Performs.mapM plan.files fun file hmem => settle_performs ground ?_
    rw [← hpaths]
    exact List.mem_map_of_mem hmem
  have hend : Performs run setting start home (do
      run.log setting (.completed setting.runName
        ((plan.files.map fun file => file.newText?.isSome).count true) plan.kept
        plan.findings.length)
      return (plan.files.map fun file => file.newText?.isSome).count true) plan.modified
      [.log (endEvent setting plan)] := by
    rw [count_settled hfits]
    exact (log_performs ground _).bind (.pure _)
  refine (log_ends ground hhome hstart hleads (startEvent setting run)).bind ?_ ?_
  · rintro ⟨⟩ begun hbegun
    refine (hsettle.bind hend [.log (startEvent setting run)] begun hbegun).imp ?_
    rintro (fault | modified) after hafter
    · have hhalted : HaltedWithin run setting start home ([] ++ [.log (startEvent setting run)])
        (plan.files.flatMap (fileDeeds setting) ++ [.log (endEvent setting plan)]) fault after :=
        hafter
      exact hhalted.of_append
    · exact hafter
  · intro fault after hafter
    exact .of_nil (List.cons_ne_nil _ _) hafter

end WorkflowRecipes.Run
