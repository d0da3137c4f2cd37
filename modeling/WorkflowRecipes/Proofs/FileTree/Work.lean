import WorkflowRecipes.FileTree.Disk

/-!
# How work on a disk ends

`Disk.outcome` is the result of a piece of work together with the disk after it, and `Disk.Ends`
states a property of both. Properties of a piece of work follow from those of its parts by
`Ends.bind`, and each primitive step has a rule of its own.

Results:
1. `Ends.bind`, `Ends.mapM`: what holds after each part holds after the whole.
2. `Candid.bind` and its companions: work built from steps has a result only if no step went wrong.
-/

namespace WorkflowRecipes

namespace Disk

variable {ε ε' α β : Type}

/-- The result of a piece of work and the disk after it. -/
def outcome (work : Work ε α) (disk : Disk) : Except ε α × Disk :=
  Id.run (StateT.run (ExceptT.run work) disk)

/-- The result of a piece of work and the disk after it are as described. -/
def Ends (work : Work ε α) (disk : Disk) (post : Except ε α → Disk → Prop) : Prop :=
  post (outcome work disk).1 (outcome work disk).2

/-- A property of the result and the disk, by whether there is a result. -/
def Either (good : α → Disk → Prop) (bad : ε → Disk → Prop) : Except ε α → Disk → Prop
  | .ok a, after => good a after
  | .error fault, after => bad fault after

/-! ## Outcomes -/

theorem outcome_pure (a : α) (disk : Disk) :
    outcome (pure a : Work ε α) disk = (.ok a, disk) := rfl

theorem outcome_throw (fault : ε) (disk : Disk) :
    outcome (throw fault : Work ε α) disk = (.error fault, disk) := rfl

theorem outcome_modify_bind (f : Disk → Disk) (next : Unit → Work ε α) (disk : Disk) :
    outcome (modify f >>= next) disk = outcome (next ()) (f disk) := rfl

theorem outcome_ask_bind (question : FileTree → Route → β) (next : β → Work ε α) (disk : Disk) :
    outcome (ask question >>= next) disk = outcome (next (question disk.tree disk.home)) disk := rfl

theorem outcome_bind (work : Work ε α) (next : α → Work ε β) (disk : Disk) :
    outcome (work >>= next) disk =
      match outcome work disk with
      | (.ok a, disk) => outcome (next a) disk
      | (.error fault, disk) => (.error fault, disk) := by
  show Id.run (StateT.run (ExceptT.bind work next) disk) = _
  simp only [ExceptT.bind, ExceptT.mk, outcome, ExceptT.run, StateT.run_bind, Id.run_bind]
  rcases h : (StateT.run work disk).run with ⟨result, after⟩
  cases result <;> rfl

theorem outcome_blame (cause : ε → ε') (work : Work ε α) (disk : Disk) :
    outcome (blame cause work) disk =
      ((outcome work disk).1.mapError cause, (outcome work disk).2) := rfl

theorem outcome_tryCatch (work : Work ε α) (handler : ε → Work ε α) (disk : Disk) :
    outcome (tryCatch work handler) disk =
      match outcome work disk with
      | (.ok a, disk) => (.ok a, disk)
      | (.error fault, disk) => outcome (handler fault) disk := by
  show Id.run (StateT.run (ExceptT.tryCatch work handler) disk) = _
  simp only [ExceptT.tryCatch, ExceptT.mk, outcome, ExceptT.run, StateT.run_bind, Id.run_bind]
  rcases h : (StateT.run work disk).run with ⟨result, after⟩
  cases result <;> rfl

/-- A step fails because that was foreseen, because it cannot be done, or it is done. -/
theorem outcome_step (act : FileTree → Route → Except FileFault (α × FileTree)) (disk : Disk) :
    outcome (step act) disk =
      match disk.troubles.head?.join with
      | some fault => (.error fault, { disk with troubles := disk.troubles.tail })
      | none =>
        match act disk.tree disk.home with
        | .error fault => (.error fault, { disk with troubles := disk.troubles.tail })
        | .ok (a, tree) => (.ok a, { disk with tree, troubles := disk.troubles.tail }) := by
  have hget : outcome (step act) disk =
      outcome (match disk.troubles.head?.join with
        | some fault => throw fault
        | none =>
          match act disk.tree disk.home with
          | .error fault => throw fault
          | .ok (result, tree) => do
            modify fun disk => { disk with tree := tree }
            return result) { disk with troubles := disk.troubles.tail } := rfl
  rw [hget]
  cases disk.troubles.head?.join with
  | some fault => rfl
  | none =>
    cases act disk.tree disk.home with
    | error fault => rfl
    | ok done => rfl

/-! ## Properties of outcomes -/

namespace Ends

variable {work : Work ε α} {disk : Disk} {post post' : Except ε α → Disk → Prop}

theorem of_outcome (h : Ends work disk post) {result : Except ε α} {after : Disk}
    (ho : outcome work disk = (result, after)) : post result after := by
  unfold Ends at h
  rwa [ho] at h

theorem imp (h : Ends work disk post)
    (himp : ∀ result after, post result after → post' result after) :
    Ends work disk post' :=
  himp _ _ h

theorem pure {a : α} (h : post (.ok a) disk) : Ends (Pure.pure a) disk post := h

theorem throw {fault : ε} (h : post (.error fault) disk) :
    Ends (MonadExcept.throw fault) disk post := h

/-- What comes after a piece of work starts from what its outcome is known to be. -/
theorem bind {next : α → Work ε β} {post' : Except ε β → Disk → Prop}
    (h : Ends work disk post)
    (hok : ∀ a after, post (.ok a) after → Ends (next a) after post')
    (herror : ∀ fault after, post (.error fault) after → post' (.error fault) after) :
    Ends (work >>= next) disk post' := by
  unfold Ends at h ⊢
  rw [outcome_bind]
  rcases ho : outcome work disk with ⟨result, after⟩
  rw [ho] at h
  cases result with
  | ok a => exact hok a after h
  | error fault => exact herror fault after h

/-- A piece of work of which nothing needs to be known. -/
theorem bind_any {next : α → Work ε β} {post' : Except ε β → Disk → Prop}
    (hok : ∀ a after, Ends (next a) after post')
    (herror : ∀ fault after, post' (.error fault) after) : Ends (work >>= next) disk post' := by
  have h : Ends work disk fun _ _ => True := trivial
  exact h.bind (fun a after _ => hok a after) fun fault after _ => herror fault after

theorem blame {cause : ε → ε'} {post : Except ε' α → Disk → Prop}
    (h : Ends work disk fun result after => post (result.mapError cause) after) :
    Ends (Disk.blame cause work) disk post := h

theorem tryCatch {handler : ε → Work ε α} (h : Ends work disk post)
    (hok : ∀ a after, post (.ok a) after → post' (.ok a) after)
    (herror : ∀ fault after, post (.error fault) after → Ends (handler fault) after post') :
    Ends (MonadExcept.tryCatch work handler) disk post' := by
  unfold Ends at h ⊢
  have hcatch := outcome_tryCatch work handler disk
  rcases ho : outcome work disk with ⟨result, after⟩
  rw [ho] at h hcatch
  cases result with
  | ok a => exact hcatch ▸ hok a after h
  | error fault => exact hcatch ▸ herror fault after h

theorem ask_bind {question : FileTree → Route → β} {next : β → Work ε α}
    (h : Ends (next (question disk.tree disk.home)) disk post) :
    Ends (Disk.ask question >>= next) disk post := h

theorem modify_bind {f : Disk → Disk} {next : Unit → Work ε α}
    (h : Ends (next ()) (f disk) post) : Ends (modify f >>= next) disk post := h

/-- A step is done, or it fails and leaves the tree as it was. -/
theorem step {act : FileTree → Route → Except FileFault (α × FileTree)}
    {post : Except FileFault α → Disk → Prop}
    (hok : ∀ a tree troubles, act disk.tree disk.home = .ok (a, tree) →
      post (.ok a) { disk with tree, troubles })
    (herror : ∀ fault troubles, post (.error fault) { disk with troubles }) :
    Ends (Disk.step act) disk post := by
  unfold Ends
  rw [outcome_step]
  split
  · exact herror _ _
  · split
    · exact herror _ _
    · next a tree hact => exact hok a tree _ hact

theorem change {act : FileTree → Route → Except FileFault FileTree}
    {post : Except FileFault Unit → Disk → Prop}
    (hok : ∀ tree troubles, act disk.tree disk.home = .ok tree →
      post (.ok ()) { disk with tree, troubles })
    (herror : ∀ fault troubles, post (.error fault) { disk with troubles }) :
    Ends (Disk.change act) disk post := by
  refine step ?_ herror
  intro a tree troubles hact
  cases hchanged : act disk.tree disk.home with
  | error fault => simp [hchanged, Except.map] at hact
  | ok after =>
    simp only [hchanged, Except.map, Except.ok.injEq, Prod.mk.injEq, true_and] at hact
    subst hact
    exact hok after troubles hchanged

theorem look {act : FileTree → Route → Except FileFault α} {post : Except FileFault α → Disk → Prop}
    (hok : ∀ a troubles, act disk.tree disk.home = .ok a → post (.ok a) { disk with troubles })
    (herror : ∀ fault troubles, post (.error fault) { disk with troubles }) :
    Ends (Disk.look act) disk post := by
  refine step ?_ herror
  intro a tree troubles hact
  cases hlooked : act disk.tree disk.home with
  | error fault => simp [hlooked, Except.map] at hact
  | ok seen =>
    simp only [hlooked, Except.map, Except.ok.injEq, Prod.mk.injEq] at hact
    obtain ⟨rfl, rfl⟩ := hact
    exact hok seen troubles hlooked

/-- Work on the items of a list one after the other. `inv` relates the items that are done and
their results to the disk. -/
theorem mapM {f : α → Work ε β} {items : List α} (inv : List α → List β → Disk → Prop)
    (bad : ε → Disk → Prop)
    (hitem : ∀ done item rest results disk, items = done ++ item :: rest → inv done results disk →
      Ends (f item) disk (Either (fun b => inv (done ++ [item]) (results ++ [b])) bad))
    (hstart : inv [] [] disk) : Ends (items.mapM f) disk (Either (inv items) bad) := by
  have hrest : ∀ rest done results disk, items = done ++ rest → inv done results disk →
      Ends (rest.mapM f) disk (Either (fun later => inv items (results ++ later)) bad) := by
    intro rest
    induction rest with
    | nil =>
      intro done results disk hitems h
      rw [List.mapM_nil]
      rw [List.append_nil] at hitems
      subst hitems
      exact Ends.pure (by simpa [Either] using h)
    | cons item rest ih =>
      intro done results disk hitems h
      rw [List.mapM_cons]
      refine (hitem done item rest results disk hitems h).bind ?_ fun _ _ h => h
      intro b after hb
      have hrest := ih (done ++ [item]) (results ++ [b]) after (by simp [hitems]) hb
      refine hrest.bind ?_ fun _ _ h => h
      intro later last hl
      exact Ends.pure (by simpa [Either] using hl)
  simpa using hrest items [] [] disk rfl hstart

end Ends

/-! ## Troubles that are met -/

section Troubles

variable {harmless : FileFault → Prop}

/-- Between two states of a disk no step went wrong, but for faults that do no harm. -/
def Clear (harmless : FileFault → Prop) (before after : Disk) : Prop :=
  ∃ passed, before.troubles = passed ++ after.troubles ∧
    ∀ fault, some fault ∈ passed → harmless fault

/-- Work that passes over no step that went wrong: it has a result only if there was none. -/
def Candid (harmless : FileFault → Prop) (work : Work ε α) : Prop :=
  ∀ disk a after, outcome work disk = (.ok a, after) → Clear harmless disk after

theorem Clear.refl (disk : Disk) : Clear harmless disk disk := ⟨[], rfl, by simp⟩

theorem Clear.trans {a b c : Disk} (hab : Clear harmless a b) (hbc : Clear harmless b c) :
    Clear harmless a c := by
  obtain ⟨passed, hp, hclear⟩ := hab
  obtain ⟨later, hl, hclear'⟩ := hbc
  refine ⟨passed ++ later, by rw [hp, hl, List.append_assoc], ?_⟩
  intro fault hmem
  rcases List.mem_append.mp hmem with h | h
  · exact hclear fault h
  · exact hclear' fault h

/-- A step that meets no trouble, or one that does no harm. -/
theorem clear_tail {disk : Disk} (h : ∀ fault, disk.troubles.head?.join = some fault → harmless fault)
    (tree : FileTree) :
    Clear harmless disk { disk with tree, troubles := disk.troubles.tail } := by
  cases ht : disk.troubles with
  | nil => exact ⟨[], by simp [ht], by simp⟩
  | cons trouble rest =>
    refine ⟨[trouble], by simp [ht], ?_⟩
    intro fault hmem
    rw [List.mem_singleton] at hmem
    exact h fault (by simp [ht, ← hmem])

/-- A step that failed met no trouble, or none but its own. -/
theorem clear_of_step_error {act : FileTree → Route → Except FileFault (α × FileTree)}
    {disk after : Disk} {fault : FileFault} (hfault : harmless fault)
    (h : outcome (step act) disk = (.error fault, after)) : Clear harmless disk after := by
  rw [outcome_step] at h
  split at h
  · next trouble htrouble =>
    cases h
    refine clear_tail ?_ _
    intro other hother
    rw [htrouble] at hother
    cases hother
    exact hfault
  · next hnone =>
    have hclear : ∀ tree, Clear harmless disk { disk with tree, troubles := disk.troubles.tail } := by
      refine clear_tail ?_
      intro other hother
      rw [hnone] at hother
      cases hother
    split at h
    · cases h
      exact hclear _
    · cases h

namespace Candid

theorem pure (a : α) : Candid harmless (Pure.pure a : Work ε α) := by
  intro disk b after h
  cases h
  exact .refl _

theorem throw (fault : ε) : Candid harmless (MonadExcept.throw fault : Work ε α) := by
  intro disk b after h
  cases h

theorem bind {work : Work ε α} {next : α → Work ε β} (h : Candid harmless work)
    (hnext : ∀ a, Candid harmless (next a)) : Candid harmless (work >>= next) := by
  intro disk b after hout
  rw [outcome_bind] at hout
  rcases ho : outcome work disk with ⟨result, middle⟩
  rw [ho] at hout
  cases result with
  | ok a => exact (h disk a middle ho).trans (hnext a middle b after hout)
  | error fault => cases hout

theorem blame {work : Work ε α} (h : Candid harmless work) (cause : ε → ε') :
    Candid harmless (Disk.blame cause work) := by
  intro disk a after hout
  rw [outcome_blame] at hout
  rcases ho : outcome work disk with ⟨result, middle⟩
  rw [ho] at hout
  cases result with
  | ok b =>
    cases hout
    exact h disk _ _ ho
  | error fault => cases hout

/-- A handler that always fails again hides nothing. -/
theorem tryCatch {work : Work ε α} (h : Candid harmless work) {handler : ε → Work ε α}
    (hfails : ∀ fault disk a after, outcome (handler fault) disk ≠ (.ok a, after)) :
    Candid harmless (MonadExcept.tryCatch work handler) := by
  intro disk a after hout
  have hcatch := outcome_tryCatch work handler disk
  rcases ho : outcome work disk with ⟨result, middle⟩
  rw [ho] at hcatch
  rw [hcatch] at hout
  cases result with
  | ok b =>
    cases hout
    exact h disk _ _ ho
  | error fault => exact absurd hout (hfails fault middle a after)

theorem ask (question : FileTree → Route → α) :
    Candid harmless (Disk.ask question : Work ε α) := by
  intro disk a after h
  cases h
  exact .refl _

theorem step (act : FileTree → Route → Except FileFault (α × FileTree)) :
    Candid harmless (Disk.step act) := by
  intro disk a after h
  rw [outcome_step] at h
  split at h
  · cases h
  · next hnone =>
    split at h
    · cases h
    · cases h
      refine clear_tail ?_ _
      intro fault hsome
      rw [hnone] at hsome
      cases hsome

theorem change (act : FileTree → Route → Except FileFault FileTree) :
    Candid harmless (Disk.change act) :=
  step _

theorem look (act : FileTree → Route → Except FileFault α) : Candid harmless (Disk.look act) :=
  step _

theorem mapM {f : α → Work ε β} (h : ∀ item, Candid harmless (f item)) (items : List α) :
    Candid harmless (items.mapM f) := by
  induction items with
  | nil => exact pure []
  | cons item rest ih =>
    rw [List.mapM_cons]
    exact (h item).bind fun _ => ih.bind fun _ => pure _

theorem forM {f : α → Work ε Unit} (h : ∀ item, Candid harmless (f item)) (items : List α) :
    Candid harmless (items.forM f) := by
  induction items with
  | nil => exact pure ()
  | cons item rest ih =>
    show Candid harmless (f item >>= fun _ => rest.forM f)
    exact (h item).bind fun _ => ih

end Candid

end Troubles

-- From here on, how a piece of work ends follows from the rules alone.
attribute [irreducible] outcome

end Disk

end WorkflowRecipes
