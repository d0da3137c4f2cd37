import Mathlib.Data.List.Chain
import Mathlib.Data.List.Nodup
import WorkflowRecipes.Proofs.Plan.Repetition
import WorkflowRecipes.Proofs.Run.Interruption

/-!
# The recipes that the log names

The event of a file that was modified names the recipes that edited it, in the order of their edits.
Names that stand side by side are put together, but a recipe that edits the file again after another
one has done so is named again.

Results:
1. `inFirstOrder_eraseReps_iff`: names put together are each there once if and only if none comes
   back.
2. `Visited.eraseReps_edits`: which recipes edited the documents.
3. `Plan.ofRepository_planned`: a file that is to be modified was planned by the recipes.
4. `Run.editors_once_iff`: when the log names each recipe once.
-/

namespace WorkflowRecipes

/-! ## Names that come back -/

/-- The names of a list, each once, in the order in which they come first. -/
structure InFirstOrder (names all : List String) : Prop where
  nodup : names.Nodup
  mem_iff : ∀ name, name ∈ names ↔ name ∈ all
  order : names.Pairwise fun a b => all.idxOf a < all.idxOf b

/-- A name stands again behind another one. -/
def ComesBack (all : List String) : Prop := ∃ a b, a ≠ b ∧ [a, b, a].Sublist all

section Names

variable {a b : String} {all rest names : List String}

theorem eraseRepsBy_loop_eq (a : String) (rest done : List String) :
    List.eraseRepsBy.loop (· == ·) a rest done =
      done.reverse ++ List.eraseRepsBy.loop (· == ·) a rest [] := by
  induction rest generalizing a done with
  | nil => simp [List.eraseRepsBy.loop]
  | cons b rest ih =>
    unfold List.eraseRepsBy.loop
    cases a == b with
    | true => exact ih a done
    | false =>
      dsimp only
      rw [ih b (a :: done), ih b [a], List.reverse_cons, List.append_assoc]
      rfl

theorem eraseReps_cons_self (a : String) (rest : List String) :
    (a :: a :: rest).eraseReps = (a :: rest).eraseReps := by
  simp [List.eraseReps, List.eraseRepsBy, List.eraseRepsBy.loop]

theorem eraseReps_cons_of_ne (h : a ≠ b) (rest : List String) :
    (a :: b :: rest).eraseReps = a :: (b :: rest).eraseReps := by
  simp only [List.eraseReps, List.eraseRepsBy]
  rw [List.eraseRepsBy.loop, beq_false_of_ne h]
  exact eraseRepsBy_loop_eq b rest [a]

/-- Induction along a list in which equal neighbours are put together. -/
theorem eraseReps_induction {motive : List String → Prop} (nil : motive [])
    (singleton : ∀ a, motive [a])
    (again : ∀ a rest, motive (a :: rest) → motive (a :: a :: rest))
    (other : ∀ a b rest, a ≠ b → motive (b :: rest) → motive (a :: b :: rest)) :
    ∀ all, motive all
  | [] => nil
  | [a] => singleton a
  | a :: b :: rest => by
    have hrest := eraseReps_induction nil singleton again other (b :: rest)
    obtain rfl | h := eq_or_ne a b
    · exact again a rest hrest
    · exact other a b rest h hrest

theorem head?_eraseReps (all : List String) : all.eraseReps.head? = all.head? := by
  induction all using eraseReps_induction with
  | nil => rfl
  | singleton a => rfl
  | again a rest ih => rw [eraseReps_cons_self, ih, List.head?_cons, List.head?_cons]
  | other a b rest h ih => rw [eraseReps_cons_of_ne h, List.head?_cons, List.head?_cons]

theorem mem_eraseReps {name : String} : name ∈ all.eraseReps ↔ name ∈ all := by
  induction all using eraseReps_induction with
  | nil => rfl
  | singleton a => rfl
  | again a rest ih => simp [eraseReps_cons_self, ih]
  | other a b rest h ih => rw [eraseReps_cons_of_ne h, List.mem_cons, ih, ← List.mem_cons]

theorem eraseReps_sublist (all : List String) : all.eraseReps.Sublist all := by
  induction all using eraseReps_induction with
  | nil => exact .slnil
  | singleton a => exact .refl [a]
  | again a rest ih => exact eraseReps_cons_self a rest ▸ ih.cons a
  | other a b rest h ih => exact eraseReps_cons_of_ne h rest ▸ ih.cons_cons a

/-- Names of which no two neighbours are equal are still there when equal neighbours are put
together. -/
theorem sublist_eraseReps (hchain : names.IsChain (· ≠ ·)) (h : names.Sublist all) :
    names.Sublist all.eraseReps := by
  induction all using eraseReps_induction generalizing names with
  | nil => exact h
  | singleton a => exact h
  | again a rest ih =>
    rw [eraseReps_cons_self]
    refine ih hchain ?_
    cases h with
    | cons _ h => exact h
    | cons_cons _ h =>
      cases h with
      | cons _ h => exact h.cons_cons a
      | cons_cons _ h => exact ((List.isChain_cons_cons.mp hchain).1 rfl).elim
  | other a b rest hne ih =>
    rw [eraseReps_cons_of_ne hne]
    cases h with
    | cons _ h => exact (ih hchain h).cons a
    | cons_cons _ h => exact (ih hchain.tail h).cons_cons a

theorem comesBack_eraseReps : ComesBack all.eraseReps ↔ ComesBack all := by
  constructor
  · rintro ⟨a, b, hne, h⟩
    exact ⟨a, b, hne, h.trans (eraseReps_sublist all)⟩
  · rintro ⟨a, b, hne, h⟩
    exact ⟨a, b, hne, sublist_eraseReps (by simp [hne, hne.symm]) h⟩

theorem inFirstOrder_of_not_comesBack (h : ¬ ComesBack all) : InFirstOrder all.eraseReps all := by
  induction all using eraseReps_induction with
  | nil => exact ⟨.nil, fun _ => Iff.rfl, .nil⟩
  | singleton a => exact ⟨List.nodup_singleton a, fun _ => Iff.rfl, List.pairwise_singleton _ a⟩
  | again a rest ih =>
    obtain ⟨hnodup, hmem, horder⟩ := ih fun ⟨b, c, hne, hback⟩ => h ⟨b, c, hne, hback.cons a⟩
    rw [eraseReps_cons_self]
    refine ⟨hnodup, fun name => by rw [hmem]; simp, horder.imp fun {b c} hbc => ?_⟩
    by_cases hb : a = b
    · subst hb
      have hc : a ≠ c := by
        rintro rfl
        exact lt_irrefl _ hbc
      rw [List.idxOf_cons_self, List.idxOf_cons_ne _ hc]
      exact Nat.succ_pos _
    · have hc : a ≠ c := by
        rintro rfl
        rw [List.idxOf_cons_self] at hbc
        exact Nat.not_lt_zero _ hbc
      rw [List.idxOf_cons_ne _ hb, List.idxOf_cons_ne _ hc]
      exact Nat.succ_lt_succ hbc
  | other a b rest hne ih =>
    have hnot : a ∉ b :: rest := by
      intro ha
      refine h ⟨a, b, hne, List.Sublist.cons_cons a (List.Sublist.cons_cons b ?_)⟩
      exact List.singleton_sublist.mpr (List.mem_of_ne_of_mem hne ha)
    obtain ⟨hnodup, hmem, horder⟩ := ih fun ⟨c, d, hcd, hback⟩ => h ⟨c, d, hcd, hback.cons a⟩
    have hlater : ∀ c ∈ (b :: rest).eraseReps, a ≠ c := by
      rintro c hc rfl
      exact hnot (mem_eraseReps.mp hc)
    rw [eraseReps_cons_of_ne hne]
    refine ⟨List.nodup_cons.mpr ⟨fun ha => hlater a ha rfl, hnodup⟩,
      fun name => by rw [List.mem_cons, hmem, ← List.mem_cons], List.pairwise_cons.mpr ⟨?_, ?_⟩⟩
    · intro c hc
      rw [List.idxOf_cons_self, List.idxOf_cons_ne _ (hlater c hc)]
      exact Nat.succ_pos _
    · refine horder.imp_of_mem fun {c d} hc hd hcd => ?_
      rw [List.idxOf_cons_ne _ (hlater c hc), List.idxOf_cons_ne _ (hlater d hd)]
      exact Nat.succ_lt_succ hcd

/-- Each name is there once, in the order in which they come first, if and only if none comes
back. -/
theorem inFirstOrder_eraseReps_iff : InFirstOrder all.eraseReps all ↔ ¬ ComesBack all := by
  refine ⟨fun h hback => ?_, inFirstOrder_of_not_comesBack⟩
  obtain ⟨a, b, -, hsub⟩ := comesBack_eraseReps.mpr hback
  have hnodup := h.nodup.sublist hsub
  simp at hnodup

/-- What a name in front adds depends on the names put together behind it. -/
theorem eraseReps_cons_congr {other : List String} (h : rest.eraseReps = other.eraseReps)
    (a : String) : (a :: rest).eraseReps = (a :: other).eraseReps := by
  have hhead : rest.head? = other.head? := by rw [← head?_eraseReps, h, head?_eraseReps]
  cases rest with
  | nil =>
    cases other with
    | nil => rfl
    | cons c other => cases hhead
  | cons b rest =>
    cases other with
    | nil => cases hhead
    | cons c other =>
      cases hhead
      obtain rfl | hne := eq_or_ne a b
      · rw [eraseReps_cons_self, eraseReps_cons_self, h]
      · rw [eraseReps_cons_of_ne hne, eraseReps_cons_of_ne hne, h]

theorem eraseReps_replicate_append (a : String) (n : Nat) (rest : List String) :
    (List.replicate (n + 1) a ++ rest).eraseReps = (a :: rest).eraseReps := by
  induction n with
  | zero => rfl
  | succ n ih => rw [List.replicate_succ, List.cons_append, ← ih, List.replicate_succ,
      List.cons_append, eraseReps_cons_self]

end Names

/-! ## Recipes that edit -/

namespace Visited

variable {context : Context} {recipes : List Recipe} {docs : List Value}

/-- The recipes that edit documents when they visit them in turn, in order. -/
def editing (context : Context) : List Recipe → List Value → List Recipe
  | [], _ => []
  | recipe :: rest, docs =>
    let first := byOne context recipe docs
    (if first.edits.isEmpty then [] else [recipe]) ++ editing context rest first.docs

theorem editing_sublist (context : Context) (recipes : List Recipe) (docs : List Value) :
    (editing context recipes docs).Sublist recipes := by
  induction recipes generalizing docs with
  | nil => exact .slnil
  | cons recipe rest ih =>
    rw [editing]
    split
    · exact (ih _).cons recipe
    · exact (ih _).cons_cons recipe

/-- The edits of one recipe are signed by it. -/
theorem signatures_byOne (context : Context) (recipe : Recipe) (docs : List Value) :
    (byOne context recipe docs).edits.map (·.recipe) =
      List.replicate (byOne context recipe docs).edits.length recipe.name := by
  refine List.eq_replicate_iff.mpr ⟨List.length_map _, fun name hname => ?_⟩
  obtain ⟨edit, hedit, rfl⟩ := List.mem_map.mp hname
  obtain ⟨outcome, -, hedit⟩ := List.mem_flatMap.mp hedit
  obtain ⟨note, -, rfl⟩ := List.mem_map.mp hedit
  rfl

/-- The signatures of the edits, put together, are the names of the recipes that edit. -/
theorem eraseReps_edits (context : Context) (recipes : List Recipe) (docs : List Value) :
    ((byAll context recipes docs).edits.map (·.recipe)).eraseReps =
      ((editing context recipes docs).map (·.name)).eraseReps := by
  induction recipes generalizing docs with
  | nil => rfl
  | cons recipe rest ih =>
    rw [byAll, editing]
    dsimp only
    rw [List.map_append, signatures_byOne]
    cases hedits : (byOne context recipe docs).edits with
    | nil => exact ih _
    | cons edit edits =>
      rw [List.length_cons, eraseReps_replicate_append]
      exact eraseReps_cons_congr (ih _) recipe.name

/-- A signature comes back if and only if a recipe edits, another one, and one with the name of the
first again. -/
theorem comesBack_iff : ComesBack ((byAll context recipes docs).edits.map (·.recipe)) ↔
    ∃ r s t, [r, s, t].Sublist (editing context recipes docs) ∧ r.name = t.name ∧
      r.name ≠ s.name := by
  rw [← comesBack_eraseReps, eraseReps_edits, comesBack_eraseReps]
  constructor
  · rintro ⟨a, b, hne, h⟩
    obtain ⟨three, hthree, heq⟩ := List.sublist_map_iff.mp h
    obtain ⟨r, later, rfl, rfl, hlater⟩ := List.map_eq_cons_iff.mp heq.symm
    obtain ⟨s, last, rfl, rfl, hlast⟩ := List.map_eq_cons_iff.mp hlater
    obtain ⟨t, none, rfl, hname, hnone⟩ := List.map_eq_cons_iff.mp hlast
    obtain rfl := List.map_eq_nil_iff.mp hnone
    exact ⟨r, s, t, hthree, hname.symm, hne⟩
  · rintro ⟨r, s, t, h, hname, hne⟩
    refine ⟨r.name, s.name, hne, ?_⟩
    have hmap := h.map (·.name)
    rwa [List.map_cons, List.map_cons, List.map_cons, List.map_nil, ← hname] at hmap

end Visited

/-! ## Files that are planned -/

/-- The edits of a plan are those that recipes make in the documents of a text. -/
structure FilePlan.Edited (recipes : List Recipe) (file : FilePlan) (context : Context)
    (docs : List Value) : Prop where
  path : file.path = context.path
  before : file.before = context.text
  documents : Yaml.documents? context.text = some docs
  edits : file.edits = (Visited.byAll context (context.meant recipes) docs).edits

namespace FilePlan

variable {context : Context} {recipes : List Recipe} {docs : List Value} {plan file : FilePlan}

theorem exists_edited_of_ofText (h : ofText context recipes = .ok plan)
    (haction : plan.action = .modify) : ∃ docs, Edited recipes plan context docs := by
  obtain ⟨hpath, hbefore, -⟩ := ofText_cases h
  cases hread : Yaml.documents? context.text with
  | none =>
    rw [ofText_of_not_documents hread] at h
    cases h
    dsimp only at haction
    split at haction <;> cases haction
  | some docs =>
    rw [ofText_of_documents hread] at h
    exact ⟨docs, hpath, hbefore, hread, (ofDocuments_cases h).1⟩

/-- The recipes that a log names for a file. -/
theorem Edited.editors_eq (h : Edited recipes file context docs) : file.editors =
    ((Visited.editing context (context.meant recipes) docs).map (·.name)).eraseReps := by
  rw [editors, h.edits, Visited.eraseReps_edits]

theorem Edited.mem_editors_iff (h : Edited recipes file context docs) {name : String} :
    name ∈ file.editors ↔
      ∃ recipe ∈ Visited.editing context (context.meant recipes) docs, recipe.name = name := by
  rw [h.editors_eq, mem_eraseReps, List.mem_map]

theorem Edited.inFirstOrder_iff (h : Edited recipes file context docs) :
    InFirstOrder file.editors (file.edits.map (·.recipe)) ↔
      ∀ r s t, [r, s, t].Sublist (Visited.editing context (context.meant recipes) docs) →
        r.name = t.name → r.name = s.name := by
  rw [editors, inFirstOrder_eraseReps_iff, h.edits, Visited.comesBack_iff]
  simp only [not_exists, not_and, ne_eq, not_not]

end FilePlan

namespace Plan

open Disk

variable {root : String} {hasGradleWrapper : Bool} {recipes : List Recipe}

theorem ofFile_planned (path : String) (disk : Disk) :
    Ends (ofFile root hasGradleWrapper recipes path) disk (Either
      (fun file _ => file.action = .modify → ∃ context docs, file.Edited recipes context docs)
      fun _ _ => True) := by
  unfold ofFile
  split
  · exact Ends.pure fun h => by cases h
  refine Ends.bind_any ?_ fun _ _ => trivial
  rintro (_ | text) after
  · exact Ends.pure fun h => by cases h
  dsimp only
  split
  · next file hfile =>
    exact Ends.pure fun haction => ⟨_, FilePlan.exists_edited_of_ofText hfile haction⟩
  · exact Ends.throw trivial

/-- A file that is to be modified was edited by the recipes. -/
theorem ofRepository_planned (name root : String) (recipes : List Recipe) (disk : Disk) :
    Ends (ofRepository name root recipes) disk (Either
      (fun plan _ => ∀ file ∈ plan.files, file.action = .modify →
        ∃ context docs, file.Edited recipes context docs)
      fun _ _ => True) := by
  unfold ofRepository
  refine Ends.bind_any ?_ fun _ _ => trivial
  rintro paths seen
  refine Ends.ask_bind ?_
  have hfiles : Ends (paths.mapM (ofFile root
      (seen.tree.isFile seen.home (Path.join root gradleWrapper)) recipes)) seen (Either
        (fun files _ => ∀ file ∈ files, file.action = .modify →
          ∃ context docs, file.Edited recipes context docs)
        fun _ _ => True) := by
    refine Ends.mapM (fun _ (files : List FilePlan) _ => ∀ file ∈ files, file.action = .modify →
      ∃ context docs, file.Edited recipes context docs) _ ?_ (by simp)
    intro done path rest files disk _ hdone
    refine (ofFile_planned path disk).imp ?_
    rintro (fault | file) after h
    · trivial
    · exact List.forall_mem_append.mpr ⟨hdone, List.forall_mem_singleton.mpr h⟩
  refine hfiles.bind ?_ fun _ _ h => h
  intro files after h
  exact Ends.pure h

end Plan

/-! ## Events of modified files -/

namespace Run

open Disk

variable {setting : Setting} {run : Run} {plan : Plan}

theorem modified_mem_events {file : FilePlan} (hfile : file ∈ plan.files)
    (haction : file.action = .modify) (hafter : file.after.isSome = true) :
    ∃ digest, modifiedEvent setting file digest ∈ run.events setting plan := by
  obtain ⟨text, htext⟩ := Option.isSome_iff_exists.mp hafter
  refine ⟨Digest.ofText text, List.mem_cons_of_mem _ (List.mem_append_left _ ?_)⟩
  refine List.mem_flatMap.mpr ⟨file, hfile, List.mem_append_left _ ?_⟩
  rw [FilePlan.newText?, if_pos haction, htext]
  exact List.mem_singleton_self _

theorem exists_file_of_modified_mem {id path first last : String} {names : List String}
    {count : Nat}
    (h : RunEvent.modified id path names count first last ∈ run.events setting plan) :
    ∃ file ∈ plan.files, file.action = .modify ∧ file.path = path ∧ names = file.editors := by
  obtain h | h := List.mem_cons.mp h
  · cases h
  obtain h | h := List.mem_append.mp h
  · obtain ⟨file, hfile, h⟩ := List.mem_flatMap.mp h
    obtain h | h := List.mem_append.mp h
    · obtain ⟨text, htext, heq⟩ := List.mem_map.mp h
      cases heq
      rw [Option.mem_toList, FilePlan.newText?] at htext
      split at htext
      · next haction => exact ⟨file, hfile, haction, rfl, rfl⟩
      · cases htext
    · obtain ⟨finding, -, heq⟩ := List.mem_map.mp h
      cases heq
  · cases List.mem_singleton.mp h

/-- A run leaves the tree as it was because there is no plan, or it has done some of the first deeds
of its plan; all of them, unless a step failed. -/
theorem apply_effect {before after : Disk} {result : Except RunError RunReport}
    (hdry : run.isDry = false) (hcheck : run.isCheck = false)
    (ground : run.Ground before.tree before.home)
    (h : outcome (run.apply setting) before = (result, after)) :
    (∃ fault, result = .error fault ∧ after.tree = before.tree) ∨
    ∃ plan planned done,
      outcome (Plan.ofRepository run.name run.root run.recipes) before = (.ok plan, planned) ∧
        done <+: run.deeds setting plan ∧
        ((∀ fault, result = .error fault → ∃ count, fault = .findings count) →
          done = run.deeds setting plan) ∧
        Effect run setting.time before.tree before.home done after.tree := by
  cases apply_ending hdry hcheck ground h with
  | unplanned _ _ htree => exact .inl ⟨_, rfl, htree⟩
  | halted hplan hbegun _ hhalted =>
    refine .inr ⟨_, _, _, hplan.made, hbegun, fun hfindings => ?_, hhalted.effect⟩
    obtain ⟨count, rfl⟩ := hfindings _ rfl
    exact (hhalted.ne_findings count rfl).elim
  | finished hplan _ hstage =>
    exact .inr ⟨_, _, _, hplan.made, List.prefix_refl _, fun _ => rfl, hstage.effect⟩

/-- The log has the first events of a run, all of them unless a step failed, and an event for each
file that is to be modified. It names the recipes that edited the file, and no others. Each is named
once, in the order of the first edits, if and only if none edited the file again after a recipe with
another name had done so. -/
theorem editors_once_iff {before after : Disk} {result : Except RunError RunReport}
    (hdry : run.isDry = false) (hcheck : run.isCheck = false)
    (ground : run.Ground before.tree before.home)
    (h : outcome (run.apply setting) before = (result, after)) :
    (∃ fault, result = .error fault ∧ after.tree = before.tree) ∨
    ∃ plan planned logged,
      outcome (Plan.ofRepository run.name run.root run.recipes) before = (.ok plan, planned) ∧
      logged <+: run.events setting plan ∧
      ((∀ fault, result = .error fault → ∃ count, fault = .findings count) →
        logged = run.events setting plan) ∧
      (∀ route, run.logRoute? before.tree before.home = some route →
        after.tree.contentAt route =
          before.tree.contentAt route ++ RunEvent.lines setting.time logged) ∧
      (∀ file ∈ plan.files, file.action = .modify →
        ∃ digest, modifiedEvent setting file digest ∈ run.events setting plan) ∧
      ∀ id path names count first last, .modified id path names count first last ∈ logged →
        ∃ file ∈ plan.files, file.action = .modify ∧ file.path = path ∧
          ∃ context docs, file.Edited run.recipes context docs ∧
            before.tree.readText before.home (Path.join run.root path) = .ok context.text ∧
            names = ((Visited.editing context (context.meant run.recipes) docs).map
              (·.name)).eraseReps ∧
            (∀ name, name ∈ names ↔
              ∃ recipe ∈ Visited.editing context (context.meant run.recipes) docs,
                recipe.name = name) ∧
            (InFirstOrder names (file.edits.map (·.recipe)) ↔
              ∀ r s t, [r, s, t].Sublist
                  (Visited.editing context (context.meant run.recipes) docs) →
                r.name = t.name → r.name = s.name) := by
  rcases apply_effect hdry hcheck ground h with hfault | ⟨plan, planned, done, hplan, hbegun, hall,
    heffect⟩
  · exact .inl hfault
  have hplans : run.Plans before plan planned := .of_outcome hplan
  have hplanned :=
    (Plan.ofRepository_planned run.name run.root run.recipes before).of_outcome hplan
  have hlogged : Deed.events done <+: run.events setting plan := by
    rw [← events_deeds]
    exact hbegun.filterMap Deed.event?
  refine .inr ⟨plan, planned, Deed.events done, hplan, hlogged, ?_, heffect.log, ?_, ?_⟩
  · intro hfindings
    rw [hall hfindings, events_deeds]
  · exact fun file hfile haction =>
      modified_mem_events hfile haction ((hplans.modify_iff hfile).mp haction)
  · intro id path names count first last hevent
    obtain ⟨file, hfile, haction, rfl, rfl⟩ :=
      exists_file_of_modified_mem (hlogged.subset hevent)
    obtain ⟨context, docs, hedited⟩ := hplanned file hfile haction
    exact ⟨file, hfile, haction, rfl, context, docs, hedited,
      hedited.before ▸ (hplans.fits file hfile).before haction, hedited.editors_eq,
      fun name => hedited.mem_editors_iff, hedited.inFirstOrder_iff⟩

/-- On the small tree one recipe edits one file, and the log names it once. -/
theorem editors_once_sample :
    sampleRun.Ground sampleTree [] ∧
      (outcome (sampleRun.apply sampleSetting) { tree := sampleTree }).1.toOption.map (·.modified) =
        some 1 ∧
      ∃ plan planned file digest,
        outcome (Plan.ofRepository sampleRun.name sampleRun.root sampleRun.recipes)
            { tree := sampleTree } = (.ok plan, planned) ∧
          file ∈ plan.files ∧
          modifiedEvent sampleSetting file digest ∈ sampleRun.events sampleSetting plan ∧
          InFirstOrder file.editors (file.edits.map (·.recipe)) := by
  have hmodified := modified_sample
  have hplanned : (outcome (Plan.ofRepository sampleRun.name sampleRun.root sampleRun.recipes)
      { tree := sampleTree }).1.toOption.map (·.files.map fun file =>
        (file.path, file.action)) = some [(".github/workflows/ci.yml", .modify)] := by
    decide +kernel
  refine ⟨ground_sample, modified_sample, ?_⟩
  rcases @editors_once_iff sampleSetting sampleRun { tree := sampleTree } _ _ rfl rfl
    ground_sample (Prod.eta _).symm with ⟨fault, hfault, -⟩ | ⟨plan, planned, logged, hplan, -, hall, -, hevent,
      hnames⟩
  · rw [hfault] at hmodified
    cases hmodified
  rw [hplan] at hplanned
  obtain ⟨file, hfiles, hfile⟩ := List.map_eq_singleton_iff.mp (Option.some.inj hplanned)
  have hmem : file ∈ plan.files := hfiles ▸ List.mem_singleton_self file
  obtain ⟨digest, hdigest⟩ := hevent file hmem (congrArg Prod.snd hfile)
  have hlogged : logged = sampleRun.events sampleSetting plan := by
    refine hall fun fault hfault => ?_
    rw [hfault] at hmodified
    cases hmodified
  obtain ⟨other, hother, -, -, context, docs, -, -, -, -, honce⟩ :=
    hnames _ _ _ _ _ _ (hlogged ▸ hdigest)
  obtain rfl : other = file := List.mem_singleton.mp (hfiles ▸ hother)
  refine ⟨plan, planned, other, digest, hplan, hmem, hdigest, honce.mpr fun r s t hthree => ?_⟩
  -- Three recipes cannot edit where there is only one.
  have hlength := (hthree.trans (Visited.editing_sublist context _ docs)).length_le
  have hmeant := List.length_filter_le (fun recipe => recipe.isMeantFor context.path)
    sampleRun.recipes
  exact absurd (hlength.trans hmeant) (by decide : ¬ 3 ≤ 1)

/-- A run that adds a schedule, takes it away and adds it again. -/
def scheduleRun : Run :=
  { sampleRun with recipes :=
      [.amendment (.addCron { cron := "0 0 * * *" }), .amendment .removeCron,
        .amendment (.addCron { cron := "0 0 * * *" })] }

/-- The event of the file that the run modifies names the recipe that edits it again twice. -/
theorem editors_named_again :
    (outcome (scheduleRun.apply sampleSetting) { tree := sampleTree }).1.toOption.map (·.modified) =
        some 1 ∧
      ∃ plan planned file digest,
        outcome (Plan.ofRepository scheduleRun.name scheduleRun.root scheduleRun.recipes)
            { tree := sampleTree } = (.ok plan, planned) ∧
          file ∈ plan.files ∧
          modifiedEvent sampleSetting file digest ∈ scheduleRun.events sampleSetting plan ∧
          file.editors = ["add-cron-trigger", "remove-all-cron-triggers", "add-cron-trigger"] ∧
          ¬ InFirstOrder file.editors (file.edits.map (·.recipe)) := by
  refine ⟨by decide +kernel, ?_⟩
  have hplanned : (outcome (Plan.ofRepository scheduleRun.name scheduleRun.root scheduleRun.recipes)
      { tree := sampleTree }).1.toOption.map (·.files.map fun file =>
        (file.action, file.after.isSome, file.editors)) = some [(.modify, true,
          ["add-cron-trigger", "remove-all-cron-triggers", "add-cron-trigger"])] := by
    decide +kernel
  rcases hplan : outcome (Plan.ofRepository scheduleRun.name scheduleRun.root scheduleRun.recipes)
    { tree := sampleTree } with ⟨result, planned⟩
  rw [hplan] at hplanned
  cases result with
  | error fault => cases hplanned
  | ok plan =>
    obtain ⟨file, hfiles, hfile⟩ := List.map_eq_singleton_iff.mp (Option.some.inj hplanned)
    have hmem : file ∈ plan.files := hfiles ▸ List.mem_singleton_self file
    rw [Prod.mk.injEq, Prod.mk.injEq] at hfile
    obtain ⟨haction, hafter, heditors⟩ := hfile
    obtain ⟨digest, hdigest⟩ := modified_mem_events hmem haction hafter
    refine ⟨plan, planned, file, digest, rfl, hmem, hdigest, heditors, fun h => ?_⟩
    have hnodup := h.nodup
    rw [heditors] at hnodup
    exact absurd hnodup (by decide)

end Run

end WorkflowRecipes
