import WorkflowRecipes.Proofs.Document.Framing

/-!
# What a change keeps

A change is described by what it puts in the place of something and by what stays around that: the
entries of a mapping under other keys, the tags around the entries or items of a value, the document
around the value at the end of a chain of keys, and the document around its jobs or steps.

Results:
1. `sameBut_overKey`, `without_set`, `without_erase`: the entries under other keys.
2. `overEntries_eq_map`, `overItems_eq_map`: the tags around entries and items.
3. `replacedAt_overKeys`, `ReplacedAt.eq_of_same`: the document around a value.
4. `changesJobs_overJobs`, `changesSteps_overSteps`: the document around its jobs and its steps.
-/

namespace WorkflowRecipes

/-- Changes are equal if they make the same and note the same. -/
theorem Editing.eq_of_parts {α : Type} {first second : Editing α}
    (hresult : first.result = second.result) (hedits : first.edits = second.edits) :
    first = second := by
  obtain ⟨result, edits⟩ := first
  obtain rfl := hresult
  obtain rfl := hedits
  rfl

theorem Editing.map_eq {α β : Type} (f : α → β) (change : Editing α) :
    f <$> change = ⟨f change.result, change.edits⟩ :=
  eq_of_parts rfl (edits_map f change)

namespace Entries

variable {entries old new : Entries} {name other : String} {names names' : List String}
  {value : Value}

/-! ## Entries in their places -/

/-- A key that is found has a first place. -/
theorem exists_split (h : entries.get? name = some value) : ∃ before after : Entries,
    entries = before ++ (.string name, value) :: after ∧ before.hasKey name = false := by
  rw [get?, Option.map_eq_some_iff] at h
  obtain ⟨⟨key, _⟩, hfind, rfl⟩ := h
  obtain ⟨hkey, before, after, rfl, hbefore⟩ := List.find?_eq_some_iff_append.mp hfind
  obtain rfl := Value.isKey_iff.mp hkey
  exact ⟨before, after, rfl, List.any_eq_false.mpr fun e he => by simpa using hbefore e he⟩

theorem get?_split {before : Entries} (h : before.hasKey name = false) (value : Value)
    (after : Entries) : get? (before ++ (.string name, value) :: after) name = some value := by
  induction before with
  | nil => exact get?_cons_of_isKey (Value.isKey_string name)
  | cons entry rest ih =>
    obtain ⟨key, old⟩ := entry
    obtain ⟨hkey, hrest⟩ := Bool.or_eq_false_iff.mp h
    rw [List.cons_append, get?_cons_of_not_isKey hkey, ih hrest]

theorem result_overKey_split {before : Entries} (h : before.hasKey name = false)
    (f : Value → Editing Value) (value : Value) (after : Entries) :
    (overKey name f (before ++ (.string name, value) :: after)).result =
      before ++ (.string name, (f value).result) :: after := by
  induction before with
  | nil => exact overKey_cons_of_isKey (Value.isKey_string name)
  | cons entry rest ih =>
    obtain ⟨key, old⟩ := entry
    obtain ⟨hkey, hrest⟩ := Bool.or_eq_false_iff.mp h
    rw [List.cons_append, overKey_cons_of_not_isKey hkey, ih hrest, List.cons_append]

/-- The value in the first place of a key is changed there. -/
theorem overKey_split {before : Entries} (h : before.hasKey name = false)
    (f : Value → Editing Value) (value : Value) (after : Entries) :
    overKey name f (before ++ (.string name, value) :: after) =
      (fun new => before ++ (.string name, new) :: after) <$> f value := by
  refine Editing.eq_of_parts (result_overKey_split h f value after) ?_
  rw [edits_overKey, get?_split h, Option.elim_some, Editing.edits_map]

/-- A key that is absent is set behind all others. -/
theorem set_of_not_hasKey (h : entries.hasKey name = false) (value : Value) :
    entries.set name value = entries ++ [(.string name, value)] := by
  induction entries with
  | nil => rfl
  | cons entry rest ih =>
    obtain ⟨key, old⟩ := entry
    obtain ⟨hkey, hrest⟩ := Bool.or_eq_false_iff.mp h
    rw [set_cons_of_not_isKey hkey, ih hrest, List.cons_append]

/-- A key that is present is set in its first place. -/
theorem set_split {before : Entries} (h : before.hasKey name = false) (old value : Value)
    (after : Entries) : set (before ++ (.string name, old) :: after) name value =
      before ++ (.string name, value) :: after := by
  have hkey : hasKey (before ++ (.string name, old) :: after) name = true :=
    hasKey_iff_exists_mem.mpr ⟨old, List.mem_append_right before List.mem_cons_self⟩
  rw [set_eq_overKey hkey, result_overKey_split h, Editing.result_pure]

/-- To set what is found under a key changes nothing. -/
theorem set_of_get? (h : entries.get? name = some value) : entries.set name value = entries := by
  obtain ⟨before, after, rfl, hbefore⟩ := exists_split h
  exact set_split hbefore value value after

/-- A key that was set behind all others is erased without a trace. -/
theorem erase_append_self (h : entries.hasKey name = false) (value : Value) :
    erase (entries ++ [(.string name, value)]) name = entries := by
  have hlast : erase [(.string name, value)] name = [] :=
    erase_cons_of_isKey (Value.isKey_string name)
  have hfirst := erase_of_not_hasKey h
  unfold erase at hfirst hlast ⊢
  rw [List.filter_append, hfirst, hlast, List.append_nil]

/-! ## Entries under other keys -/

/-- Two mappings have the same keys in the same places and, but for some of them, the same
values. -/
def SameBut (names : List String) (old new : Entries) : Prop :=
  List.Forall₂ (fun e e' => e'.1 = e.1 ∧ ((∀ name ∈ names, e.1.isKey name = false) → e'.2 = e.2))
    old new

theorem SameBut.refl (names : List String) (entries : Entries) : SameBut names entries entries :=
  List.forall₂_same.mpr fun _ _ => ⟨rfl, fun _ => rfl⟩

theorem SameBut.trans {middle : Entries} (h : SameBut names old middle)
    (h' : SameBut names middle new) : SameBut names old new := by
  induction h generalizing new with
  | nil => exact h'
  | cons hfirst _ ih =>
    obtain ⟨last, rest, hlast, hrest, rfl⟩ := List.forall₂_cons_left_iff.mp h'
    refine .cons ⟨hlast.1.trans hfirst.1, fun hnames => ?_⟩ (ih hrest)
    rw [hlast.2 (hfirst.1 ▸ hnames), hfirst.2 hnames]

theorem SameBut.mono (h : SameBut names old new) (hsub : names ⊆ names') :
    SameBut names' old new :=
  h.imp fun _ _ hentry => ⟨hentry.1, fun hnames =>
    hentry.2 fun name hname => hnames name (hsub hname)⟩

/-- To change the value under a key keeps all else in its place. -/
theorem sameBut_overKey (h : name ∈ names) (f : Value → Editing Value) (entries : Entries) :
    SameBut names entries (overKey name f entries).result := by
  induction entries with
  | nil => exact .nil
  | cons entry rest ih =>
    obtain ⟨key, value⟩ := entry
    cases hkey : key.isKey name with
    | true =>
      rw [overKey_cons_of_isKey hkey]
      exact .cons ⟨rfl, fun hnames => absurd (hnames name h) (by rw [hkey]; decide)⟩
        (SameBut.refl names rest)
    | false =>
      rw [overKey_cons_of_not_isKey hkey]
      exact .cons ⟨rfl, fun _ => rfl⟩ ih

theorem sameBut_set (h : name ∈ names) (hkey : entries.hasKey name = true) (value : Value) :
    SameBut names entries (entries.set name value) := by
  rw [set_eq_overKey hkey]
  exact sameBut_overKey h _ entries

/-- The entries that are under none of some string keys. -/
def without (entries : Entries) (names : List String) : Entries :=
  entries.filter fun e => !names.any fun name => e.1.isKey name

theorem without_cons_of_isKey {key : Value} {rest : Entries} (h : name ∈ names)
    (hkey : key.isKey name = true) (value : Value) :
    without ((key, value) :: rest) names = without rest names := by
  have hany : (names.any fun name => key.isKey name) = true := List.any_eq_true.mpr ⟨name, h, hkey⟩
  simp [without, hany]

theorem without_set (h : name ∈ names) (entries : Entries) (value : Value) :
    (entries.set name value).without names = entries.without names := by
  induction entries with
  | nil => exact without_cons_of_isKey h (Value.isKey_string name) value
  | cons entry rest ih =>
    obtain ⟨key, old⟩ := entry
    cases hkey : key.isKey name with
    | true =>
      rw [set_cons_of_isKey hkey, without_cons_of_isKey h hkey, without_cons_of_isKey h hkey]
    | false =>
      unfold without at ih ⊢
      rw [set_cons_of_not_isKey hkey, List.filter_cons, List.filter_cons, ih]

theorem without_erase (h : name ∈ names) (entries : Entries) :
    (entries.erase name).without names = entries.without names := by
  rw [without, erase, List.filter_filter, without]
  refine List.filter_congr fun e _ => ?_
  cases hkey : e.1.isKey name with
  | true =>
    have hany : (names.any fun name => e.1.isKey name) = true :=
      List.any_eq_true.mpr ⟨name, h, hkey⟩
    rw [hany]
    rfl
  | false => exact Bool.and_true _

theorem get?_erase_self (entries : Entries) (name : String) :
    (entries.erase name).get? name = none := by
  have h := hasKey_erase_self entries name
  rwa [hasKey_eq, Option.isSome_eq_false_iff, Option.isNone_iff_eq_none] at h

theorem get?_erase_of_ne (h : name ≠ other) (entries : Entries) :
    (entries.erase name).get? other = entries.get? other := by
  induction entries with
  | nil => rfl
  | cons entry rest ih =>
    obtain ⟨key, value⟩ := entry
    cases hkey : key.isKey name with
    | true =>
      rw [erase_cons_of_isKey hkey, ih,
        get?_cons_of_not_isKey (Value.isKey_eq_false_of_isKey hkey h)]
    | false =>
      rw [erase_cons_of_not_isKey hkey]
      cases hother : key.isKey other with
      | true => rw [get?_cons_of_isKey hother, get?_cons_of_isKey hother]
      | false => rw [get?_cons_of_not_isKey hother, get?_cons_of_not_isKey hother, ih]

/-- A change under a key without edits. -/
theorem run_overKey (f : Value → Id Value) (name : String) (entries : Entries) :
    Id.run (overKey name f entries) =
      (overKey name (fun value => (pure (Id.run (f value)) : Editing Value)) entries).result := by
  induction entries with
  | nil => rfl
  | cons entry rest ih =>
    obtain ⟨key, value⟩ := entry
    cases hkey : key.isKey name with
    | true =>
      rw [overKey_cons_of_isKey hkey, overKey, if_pos hkey]
      rfl
    | false =>
      rw [overKey_cons_of_not_isKey hkey, ← ih, overKey, if_neg (by rw [hkey]; decide)]
      rfl

end Entries

namespace Value

/-! ## Tags around entries and items -/

/-- A mapping with other entries, under the tags that it had. -/
def withEntries (value : Value) (entries : Entries) : Value :=
  (value.overEntries fun _ => (pure entries : Editing Entries)).result

/-- A sequence with other items, under the tags that it had. -/
def withItems (value : Value) (items : List Value) : Value :=
  (value.overItems fun _ => (pure items : Editing (List Value))).result

variable {entries : Entries} {items : List Value}

/-- The entries that a value has are changed under its tags. -/
theorem overEntries_eq_map {f : Entries → Editing Entries} : ∀ {value : Value},
    value.entries? = some entries → overEntries f value = value.withEntries <$> f entries
  | .mapping _, h => Option.some.inj h ▸ rfl
  | .tagged tag value, h => by
    have ih : overEntries f value = value.withEntries <$> f entries := overEntries_eq_map h
    show (overEntries f value >>= fun value => pure (Value.tagged tag value)) = _
    rw [ih]
    exact Editing.eq_of_parts rfl (List.append_nil _)
  | .sequence _, h | .string _, h | .number _, h | .bool _, h | .null, h => by cases h

/-- The edits of a change of the entries are those of the entries that a value has. -/
theorem edits_overEntries (f : Entries → Editing Entries) (value : Value) :
    (overEntries f value).edits = value.entries?.elim [] fun entries => (f entries).edits := by
  cases hentries : value.entries? with
  | none =>
    rw [overEntries_eq_pure value fun entries h => by rw [hentries] at h; cases h]
    rfl
  | some entries => rw [overEntries_eq_map hentries, Editing.edits_map, Option.elim_some]

/-- The items that a value has are changed under its tags. -/
theorem overItems_eq_map {f : List Value → Editing (List Value)} : ∀ {value : Value},
    value.items? = some items → overItems f value = value.withItems <$> f items
  | .sequence _, h => Option.some.inj h ▸ rfl
  | .tagged tag value, h => by
    have ih : overItems f value = value.withItems <$> f items := overItems_eq_map h
    show (overItems f value >>= fun value => pure (Value.tagged tag value)) = _
    rw [ih]
    exact Editing.eq_of_parts rfl (List.append_nil _)
  | .mapping _, h | .string _, h | .number _, h | .bool _, h | .null, h => by cases h

/-- A change that leaves the items of a value alone, if it has any, does nothing at all. -/
theorem overItems_eq_pure_of_items? {f : List Value → Editing (List Value)} : ∀ {value : Value},
    (∀ items, value.items? = some items → f items = pure items) → overItems f value = pure value
  | .sequence items, h => by
    show (f items >>= fun items => pure (Value.sequence items)) = _
    rw [h items rfl]
    rfl
  | .tagged tag value, h => by
    have ih : overItems f value = pure value := overItems_eq_pure_of_items? h
    show (overItems f value >>= fun value => pure (Value.tagged tag value)) = _
    rw [ih]
    rfl
  | .mapping _, _ | .string _, _ | .number _, _ | .bool _, _ | .null, _ => rfl

theorem entries?_withEntries {value : Value} {old : Entries} (h : value.entries? = some old)
    (new : Entries) : (value.withEntries new).entries? = some new := by
  rw [withEntries, entries?_overEntries, h]
  rfl

theorem withEntries_self : ∀ {value : Value}, value.entries? = some entries →
    value.withEntries entries = value
  | .mapping _, h => Option.some.inj h ▸ rfl
  | .tagged tag value, h => by
    have ih : value.withEntries entries = value := withEntries_self h
    exact congrArg (Value.tagged tag) ih
  | .sequence _, h | .string _, h | .number _, h | .bool _, h | .null, h => by cases h

theorem result_overIndexed_cons (f : Nat → Value → Editing Value) (i : Nat) (item : Value)
    (rest : List Value) : (overIndexed f i (item :: rest)).result =
      (f i item).result :: (overIndexed f (i + 1) rest).result := rfl

theorem edits_overIndexed_cons (f : Nat → Value → Editing Value) (i : Nat) (item : Value)
    (rest : List Value) : (overIndexed f i (item :: rest)).edits =
      (f i item).edits ++ (overIndexed f (i + 1) rest).edits :=
  congrArg ((f i item).edits ++ ·) (List.append_nil _)

/-! ## The document around a value -/

/-- A value at the end of a chain of keys gives way to another one, and all else is kept. -/
inductive ReplacedAt (old new : Value) : List String → Value → Value → Prop
  | here : ReplacedAt old new [] old new
  | under {name : String} {names : List String} {doc child child' : Value}
      {before after : Entries} :
      doc.entries? = some (before ++ (.string name, child) :: after) →
      before.hasKey name = false → ReplacedAt old new names child child' →
      ReplacedAt old new (name :: names) doc
        (doc.withEntries (before ++ (.string name, child') :: after))

variable {doc doc' old new : Value} {names : List String}

theorem lookup?_singleton (doc : Value) (name : String) : doc.lookup? [name] = doc.get? name :=
  (lookup?_cons doc name []).trans (Option.bind_fun_some (doc.get? name))

/-- A change at the end of a chain of keys replaces what it finds there. -/
theorem replacedAt_overKeys (h : doc.lookup? names = some old) (f : Value → Editing Value) :
    ReplacedAt old (f old).result names doc (overKeys names f doc).result := by
  induction names generalizing doc with
  | nil =>
    cases h
    exact .here
  | cons name rest ih =>
    rw [lookup?_cons] at h
    obtain ⟨child, hchild, hrest⟩ := Option.bind_eq_some_iff.mp h
    obtain ⟨entries, hentries, hget⟩ := Option.bind_eq_some_iff.mp hchild
    obtain ⟨before, after, rfl, hbefore⟩ := Entries.exists_split hget
    rw [overKeys, overKey, overEntries_eq_map hentries, Entries.overKey_split hbefore]
    exact .under hentries hbefore (ih hrest)

theorem edits_overKeys (h : doc.lookup? names = some old) (f : Value → Editing Value) :
    (overKeys names f doc).edits = (f old).edits := by
  induction names generalizing doc with
  | nil =>
    cases h
    rfl
  | cons name rest ih =>
    rw [lookup?_cons] at h
    obtain ⟨child, hchild, hrest⟩ := Option.bind_eq_some_iff.mp h
    rw [overKeys, edits_overKey, hchild]
    exact ih hrest

/-- A value that gives way to itself leaves everything as it was. -/
theorem ReplacedAt.eq_of_same (h : ReplacedAt old new names doc doc') (hsame : new = old) :
    doc' = doc := by
  induction h with
  | here => exact hsame
  | under hentries _ _ ih => rw [ih, withEntries_self hentries]

/-! ## The document around its jobs and steps -/

/-- A change of a document changes each job by itself, as a relation between location, job and
change says, and keeps what stands around the jobs. -/
structure ChangesJobs (relation : Location → Entries → Editing Entries → Prop) (doc : Value)
    (change : Editing Value) : Prop where
  around : change.result.aroundJobs = doc.aroundJobs
  each : ∃ parts : List (Editing Entries),
    List.Forall₂ (fun job part => relation job.2.1 job.2.2 part) doc.jobs parts ∧
      change.result.jobs =
        List.zipWith (fun job part => (job.1, job.2.1, part.result)) doc.jobs parts ∧
      change.edits = parts.flatMap Editing.edits

/-- A change of a document changes each step by itself, as a relation between location, step and
change says, and keeps what stands around the steps. -/
structure ChangesSteps (relation : Location → Entries → Editing Entries → Prop) (doc : Value)
    (change : Editing Value) : Prop where
  around : change.result.aroundSteps = doc.aroundSteps
  each : ∃ parts : List (Editing Entries),
    List.Forall₂ (fun step part => relation step.1 step.2 part) doc.steps parts ∧
      change.result.steps =
        List.zipWith (fun step part => (step.1, part.result)) doc.steps parts ∧
      change.edits = parts.flatMap Editing.edits

section Walks

variable {f : Location → Entries → Editing Entries}
  {relation : Location → Entries → Editing Entries → Prop}

theorem edits_overJobsOf (f : Location → Entries → Editing Entries) (entries : Entries) :
    (overValues (fun name job => overEntries (f (jobsLocation.key name)) job) entries).edits =
      (entries.filterMap fun e => e.2.entries?.map fun job =>
        (e.1.keyText, jobsLocation.key e.1.keyText, job)).flatMap fun job =>
          (f job.2.1 job.2.2).edits := by
  induction entries with
  | nil => rfl
  | cons entry rest ih =>
    obtain ⟨key, job⟩ := entry
    rw [overValues, Editing.edits_bind, Editing.edits_bind, ih, Editing.edits_pure, List.append_nil,
      List.filterMap_cons, edits_overEntries]
    cases job.entries? with
    | none => rfl
    | some entries => rfl

/-- The edits of a walk over jobs are those of the jobs, in order. -/
theorem edits_overJobs (f : Location → Entries → Editing Entries) (doc : Value) :
    (overJobs f doc).edits = doc.jobs.flatMap fun job => (f job.2.1 job.2.2).edits := by
  rw [overJobs, edits_overKey, Value.jobs]
  cases doc.get? "jobs" with
  | none => rfl
  | some jobs =>
    rw [Option.elim_some, Option.toList_some, List.flatMap_singleton, entriesOf, edits_overEntries]
    cases jobs.entries? with
    | none => rfl
    | some entries => exact edits_overJobsOf f entries

theorem changesJobs_overJobs (h : ∀ location job, relation location job (f location job))
    (doc : Value) : ChangesJobs relation doc (overJobs f doc) := by
  refine ⟨aroundJobs_overJobs f doc, doc.jobs.map fun job => f job.2.1 job.2.2, ?_, ?_, ?_⟩
  · rw [List.forall₂_map_right_iff, List.forall₂_same]
    exact fun job _ => h job.2.1 job.2.2
  · rw [jobs_overJobs, List.zipWith_map_right, List.zipWith_self]
    rfl
  · rw [edits_overJobs, List.flatMap_map]

theorem changesSteps_overSteps (h : ∀ location step, relation location step (f location step))
    (doc : Value) : ChangesSteps relation doc (overSteps f doc) := by
  refine ⟨aroundSteps_overSteps f doc, doc.steps.map fun step => f step.1 step.2, ?_, ?_, ?_⟩
  · rw [List.forall₂_map_right_iff, List.forall₂_same]
    exact fun step _ => h step.1 step.2
  · rw [steps_overSteps, List.zipWith_map_right, List.zipWith_self]
    rfl
  · rw [edits_overSteps, List.flatMap_map]

end Walks

end Value

end WorkflowRecipes
