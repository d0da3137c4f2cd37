import WorkflowRecipes.Audit.Publishing
import WorkflowRecipes.Proofs.Document.Swapping

/-!
# Pushes for releases

Caches are reported in a workflow that publishes, and a push for tags or for branches of releases is
taken as a sign of it. The settings of the push are read in order up to the first of the two keys, so
branches that are not for releases close them: tags behind them are not seen.

Results:
1. `isReleasePush_iff`: a push is for releases if and only if an entry says so and none before it
   closes the settings.
2. `hides_iff`: entries for releases are missed if and only if one closes the settings before them.
3. `isReleasePush_of_perm`, `exists_perm_isReleasePush_ne`: the order of the entries decides if and
   only if there are entries of both kinds.
4. `findings_perm_iff`, `release_push_iff`: what this means for a workflow and its findings.
-/

namespace WorkflowRecipes.CachePoisoning

/-! ## The settings of a push -/

/-- The entry is for releases: tags, or branches with one for releases among them. -/
def IsRelease (entry : Value × Value) : Prop :=
  entry.1.text? = some "tags" ∨ (entry.1.text? = some "branches" ∧ listsRelease entry.2 = true)

/-- The entry has branches, none of them for releases. No entry behind it is looked at. -/
def Closes (entry : Value × Value) : Prop :=
  entry.1.text? = some "branches" ∧ listsRelease entry.2 = false

/-- An entry closes the settings before the first that is for releases. -/
def Hides (entries : Entries) : Prop :=
  ∃ before entry after, entries = before ++ entry :: after ∧ Closes entry ∧
    (∀ earlier ∈ before, ¬ IsRelease earlier) ∧ ∃ later ∈ after, IsRelease later

variable {entry : Value × Value} {entries entries' rest : Entries}

theorem IsRelease.not_closes (h : IsRelease entry) : ¬ Closes entry := by
  rintro ⟨hbranches, hnone⟩
  obtain htags | ⟨-, hlists⟩ := h
  · exact absurd (htags.symm.trans hbranches) (by decide)
  · exact Bool.false_ne_true (hnone.symm.trans hlists)

theorem isReleasePush_cons (entry : Value × Value) (rest : Entries) :
    isReleasePush (entry :: rest) = true ↔
      IsRelease entry ∨ (¬ Closes entry ∧ isReleasePush rest = true) := by
  obtain ⟨key, value⟩ := entry
  unfold IsRelease Closes
  rw [isReleasePush]
  split
  · next htags => simp [htags]
  · next hbranches => cases listsRelease value <;> simp [hbranches]
  · next htags hbranches =>
    have hnot : key.text? ≠ some "tags" ∧ key.text? ≠ some "branches" := ⟨htags, hbranches⟩
    simp [hnot]

/-- An entry of a list with what stands around it is the first, or it stands in the rest. -/
theorem exists_around_cons {α : Type} {P : List α → α → List α → Prop} {first : α}
    {rest : List α} :
    (∃ before x after, first :: rest = before ++ x :: after ∧ P before x after) ↔
      P [] first rest ∨ ∃ before x after, rest = before ++ x :: after ∧ P (first :: before) x after := by
  constructor
  · rintro ⟨before, x, after, heq, h⟩
    obtain ⟨rfl, heq⟩ | ⟨before, rfl, rfl⟩ := List.cons_eq_append_iff.mp heq
    · cases heq
      exact .inl h
    · exact .inr ⟨before, x, after, rfl, h⟩
  · rintro (h | ⟨before, x, after, rfl, h⟩)
    · exact ⟨[], first, rest, rfl, h⟩
    · exact ⟨first :: before, x, after, rfl, h⟩

/-- A push is for releases if and only if an entry says so and none before it closes the settings. -/
theorem isReleasePush_iff : isReleasePush entries = true ↔
    ∃ before entry after, entries = before ++ entry :: after ∧ IsRelease entry ∧
      ∀ earlier ∈ before, ¬ Closes earlier := by
  induction entries with
  | nil => simp [isReleasePush]
  | cons first rest ih =>
    rw [isReleasePush_cons, ih, exists_around_cons]
    simp only [List.forall_mem_cons, List.not_mem_nil, false_imp_iff, implies_true, and_true]
    refine or_congr_right ?_
    constructor
    · rintro ⟨hopen, before, entry, after, rfl, hrelease, hbefore⟩
      exact ⟨before, entry, after, rfl, hrelease, hopen, hbefore⟩
    · rintro ⟨before, entry, after, rfl, hrelease, hopen, hbefore⟩
      exact ⟨hopen, before, entry, after, rfl, hrelease, hbefore⟩

theorem exists_release_of_isReleasePush (h : isReleasePush entries = true) :
    ∃ entry ∈ entries, IsRelease entry := by
  obtain ⟨before, entry, after, rfl, hrelease, -⟩ := isReleasePush_iff.mp h
  exact ⟨entry, List.mem_append_right _ List.mem_cons_self, hrelease⟩

theorem hides_cons (first : Value × Value) (rest : Entries) : Hides (first :: rest) ↔
    (Closes first ∧ ∃ later ∈ rest, IsRelease later) ∨ (¬ IsRelease first ∧ Hides rest) := by
  unfold Hides
  rw [exists_around_cons]
  simp only [List.forall_mem_cons, List.not_mem_nil, false_imp_iff, implies_true, true_and]
  refine or_congr_right ?_
  constructor
  · rintro ⟨before, entry, after, rfl, hcloses, ⟨hfirst, hbefore⟩, hlater⟩
    exact ⟨hfirst, before, entry, after, rfl, hcloses, hbefore, hlater⟩
  · rintro ⟨hfirst, before, entry, after, rfl, hcloses, hbefore, hlater⟩
    exact ⟨before, entry, after, rfl, hcloses, ⟨hfirst, hbefore⟩, hlater⟩

/-- Entries for releases are missed if and only if one closes the settings before them. -/
theorem hides_iff : Hides entries ↔
    ¬ isReleasePush entries = true ∧ ∃ entry ∈ entries, IsRelease entry := by
  induction entries with
  | nil => simp [Hides]
  | cons first rest ih =>
    rw [hides_cons, isReleasePush_cons, List.exists_mem_cons_iff, ih]
    by_cases hrelease : IsRelease first
    · simp [hrelease, hrelease.not_closes]
    · by_cases hcloses : Closes first <;> simp [hrelease, hcloses]

/-! ## Other orders -/

/-- Without an entry that closes the settings, the order of the entries does not matter. -/
theorem isReleasePush_of_open (h : ∀ entry ∈ entries, ¬ Closes entry) :
    isReleasePush entries = true ↔ ∃ entry ∈ entries, IsRelease entry := by
  refine ⟨exists_release_of_isReleasePush, ?_⟩
  rintro ⟨entry, hmem, hrelease⟩
  obtain ⟨before, after, rfl⟩ := List.append_of_mem hmem
  exact isReleasePush_iff.mpr ⟨before, entry, after, rfl, hrelease,
    fun earlier hearlier => h earlier (List.mem_append_left _ hearlier)⟩

/-- There are entries of both kinds. -/
def IsMixed (entries : Entries) : Prop :=
  (∃ entry ∈ entries, IsRelease entry) ∧ ∃ entry ∈ entries, Closes entry

theorem isReleasePush_of_perm (hperm : entries.Perm entries') (h : ¬ IsMixed entries) :
    isReleasePush entries' = isReleasePush entries := by
  rw [Bool.eq_iff_iff]
  by_cases hcloses : ∃ entry ∈ entries, Closes entry
  · have hnone : ¬ ∃ entry ∈ entries, IsRelease entry := fun hrelease => h ⟨hrelease, hcloses⟩
    refine iff_of_false (fun hpush => hnone ?_) fun hpush =>
      hnone (exists_release_of_isReleasePush hpush)
    obtain ⟨entry, hmem, hrelease⟩ := exists_release_of_isReleasePush hpush
    exact ⟨entry, hperm.mem_iff.mpr hmem, hrelease⟩
  · have hopen : ∀ entry ∈ entries, ¬ Closes entry := fun entry hmem hentry =>
      hcloses ⟨entry, hmem, hentry⟩
    rw [isReleasePush_of_open hopen,
      isReleasePush_of_open fun entry hmem => hopen entry (hperm.mem_iff.mpr hmem)]
    exact exists_congr fun entry => and_congr_left fun _ => hperm.mem_iff.symm

/-- With entries of both kinds, the order decides: either kind can be put first. -/
theorem exists_perm_isReleasePush_ne (h : IsMixed entries) :
    ∃ entries', entries.Perm entries' ∧ isReleasePush entries' ≠ isReleasePush entries := by
  obtain ⟨⟨release, hrelease, hsays⟩, closing, hclosing, hcloses⟩ := h
  cases hpush : isReleasePush entries with
  | false =>
    obtain ⟨rest, hperm⟩ := (List.singleton_sublist.mpr hrelease).exists_perm_append
    refine ⟨release :: rest, hperm, ?_⟩
    rw [(isReleasePush_cons release rest).mpr (.inl hsays)]
    decide
  | true =>
    obtain ⟨rest, hperm⟩ := (List.singleton_sublist.mpr hclosing).exists_perm_append
    refine ⟨closing :: rest, hperm, fun hfirst => ?_⟩
    obtain hsays | ⟨hopen, -⟩ := (isReleasePush_cons closing rest).mp hfirst
    · exact hsays.not_closes hcloses
    · exact hopen hcloses

/-! ## Workflows -/

/-- The settings of pushes in a workflow. -/
def push? (doc : Value) : Option Value := (doc.get? "on").bind fun on => on.get? "push"

variable {doc doc' : Value}

theorem publishesOnEvent_iff : publishesOnEvent doc = true ↔
    "release" ∈ Event.names doc ∨ ∃ push ∈ push? doc, isReleasePush push.entriesOf = true := by
  rw [publishesOnEvent, Bool.or_eq_true, List.contains_iff_mem, Option.any_eq_true]
  rfl

/-- Two workflows that are the same but for the order of the entries of the settings of pushes. -/
def Reorders (doc doc' : Value) : Prop :=
  ∃ push push', Value.Reordered push push' ∧
    Value.Swap "push" push push' [.key "on", .key "push"] doc doc'

theorem push?_of_reorders (h : Reorders doc doc') : push? doc' = push? doc ∨
    ∃ push push', push? doc = some push ∧ push? doc' = some push' ∧ Value.Reordered push push' := by
  obtain ⟨push, push', hreordered, hswap⟩ := h
  unfold push?
  obtain hsame | ⟨rest, hhops, ⟨hname, -⟩ | ⟨on, on', hon, hon', hbelow⟩⟩ :=
    Value.get?_of_swap hswap "on"
  · exact .inl (by rw [hsame])
  · exact absurd hname (by decide)
  · cases hhops
    rw [hon, hon']
    obtain hsame | ⟨rest, hhops, ⟨-, hpush, hpush'⟩ | ⟨_, _, -, -, hbelow⟩⟩ :=
      Value.get?_of_swap hbelow "push"
    · exact .inl hsame
    · exact .inr ⟨push, push', hpush, hpush', hreordered⟩
    · cases hhops
      exact absurd rfl hbelow.hops_ne_nil

/-- The settings of pushes can be put in any order. -/
theorem exists_reorders {push : Value} {entries' : Entries} (hpush : push? doc = some push)
    (hne : push.entriesOf ≠ []) (hperm : push.entriesOf.Perm entries') :
    ∃ doc', Reorders doc doc' ∧ ∃ push', push? doc' = some push' ∧ push'.entriesOf = entries' := by
  obtain ⟨on, hon, hpush⟩ := Option.bind_eq_some_iff.mp hpush
  obtain ⟨entries, hentries⟩ : ∃ entries, push.entries? = some entries := by
    cases h : push.entries? with
    | none => exact (hne (by rw [Value.entriesOf, h]; rfl)).elim
    | some entries => exact ⟨entries, rfl⟩
  rw [Value.entriesOf, hentries] at hperm
  obtain ⟨push', hreordered, hpush'⟩ := Value.exists_reordered hperm push hentries
  obtain ⟨on', hget, hhere, -⟩ := Value.exists_swap_of_get? on hpush push'
  obtain ⟨doc', hget', -, hbelow⟩ := Value.exists_swap_of_get? doc hon on'
  refine ⟨doc', ⟨push, push', hreordered, hbelow _ _ _ _ hhere⟩, push', ?_, hpush'⟩
  rw [push?, hget']
  exact hget

theorem names_of_reorders (h : Reorders doc doc') : Event.names doc' = Event.names doc := by
  obtain ⟨push, push', -, hswap⟩ := h
  exact Value.names_of_swap hswap (by decide)

theorem hasPublisher_of_reorders (h : Reorders doc doc') : hasPublisher doc' = hasPublisher doc := by
  obtain ⟨push, push', -, hswap⟩ := h
  rw [hasPublisher, Value.get?_of_swap_of_ne hswap (by decide), hasPublisher]

/-- An action that uses a cache is named somewhere. -/
def UsesCache (doc : Value) : Prop :=
  ∃ location value uses, (location, "uses", value) ∈ doc.entriesWithin ∧ value.text? = some uses ∧
    (ActionRef.ofText uses).name ∈ cachingActions

theorem exists_findings_eq : ∃ problem? : String → Option String,
    (∀ uses, (problem? uses).isSome = true ↔ (ActionRef.ofText uses).name ∈ cachingActions) ∧
      ∀ doc, findings doc = if publishesOnEvent doc || hasPublisher doc then
        Finding.underTextKey doc "uses" problem? else [] := by
  refine ⟨_, fun uses => ?_, fun _ => rfl⟩
  dsimp only
  rw [← List.contains_iff_mem]
  split
  · next h => exact iff_of_true rfl h
  · next h => exact iff_of_false Bool.false_ne_true h

theorem underTextKey_ne_nil_iff {problem? : String → Option String}
    (hproblem : ∀ uses,
      (problem? uses).isSome = true ↔ (ActionRef.ofText uses).name ∈ cachingActions) :
    Finding.underTextKey doc "uses" problem? ≠ [] ↔ UsesCache doc := by
  rw [Finding.underTextKey, Finding.underKey, Ne, List.filterMap_eq_nil_iff, not_forall₂]
  constructor
  · rintro ⟨⟨location, name, value⟩, hmem, hfound⟩
    dsimp only at hfound
    split at hfound
    · next hname =>
      subst hname
      obtain ⟨uses, huses⟩ : ∃ uses, value.text? = some uses := by
        cases htext : value.text? with
        | none => simp [htext] at hfound
        | some uses => exact ⟨uses, rfl⟩
      refine ⟨location, value, uses, hmem, huses, (hproblem uses).mp ?_⟩
      rw [huses, Option.bind_some, Option.map_eq_none_iff] at hfound
      exact Option.isSome_iff_ne_none.mpr hfound
    · exact absurd rfl hfound
  · rintro ⟨location, value, uses, hmem, huses, hname⟩
    refine ⟨(location, "uses", value), hmem, ?_⟩
    dsimp only
    rw [if_pos rfl, huses, Option.bind_some, Option.map_eq_none_iff]
    exact Option.isSome_iff_ne_none.mp ((hproblem uses).mpr hname)

theorem publishesOnEvent_of_reorders (h : Reorders doc doc')
    (hsame : "release" ∈ Event.names doc ∨ ¬ ∃ push ∈ push? doc, IsMixed push.entriesOf) :
    publishesOnEvent doc' = publishesOnEvent doc := by
  rw [Bool.eq_iff_iff, publishesOnEvent_iff, publishesOnEvent_iff, names_of_reorders h]
  obtain hrelease | hmixed := hsame
  · exact iff_of_true (.inl hrelease) (.inl hrelease)
  · refine or_congr_right ?_
    obtain hpush | ⟨push, push', hpush, hpush', hreordered⟩ := push?_of_reorders h
    · rw [hpush]
    · have hnot : ¬ IsMixed push.entriesOf := fun hentries => hmixed ⟨push, hpush, hentries⟩
      simp [hpush, hpush', isReleasePush_of_perm hreordered.entriesOf_perm hnot]

theorem exists_reorders_ne {push : Value} (hnames : "release" ∉ Event.names doc)
    (hpush : push? doc = some push) (hmixed : IsMixed push.entriesOf) :
    ∃ doc', Reorders doc doc' ∧ publishesOnEvent doc' ≠ publishesOnEvent doc := by
  have hne : push.entriesOf ≠ [] := by
    obtain ⟨⟨entry, hentry, -⟩, -⟩ := hmixed
    exact List.ne_nil_of_mem hentry
  obtain ⟨entries', hperm, hother⟩ := exists_perm_isReleasePush_ne hmixed
  obtain ⟨doc', hreorders, push', hpush', rfl⟩ := exists_reorders hpush hne hperm
  refine ⟨doc', hreorders, fun hsame => hother ?_⟩
  rw [Bool.eq_iff_iff, publishesOnEvent_iff, publishesOnEvent_iff, names_of_reorders hreorders,
    hpush, hpush'] at hsame
  rw [Bool.eq_iff_iff]
  simpa [hnames] using hsame

/-- There are entries of both kinds, nothing else says that the workflow publishes, and it uses a
cache. -/
def OrderDecides (doc : Value) : Prop :=
  "release" ∉ Event.names doc ∧ hasPublisher doc = false ∧ UsesCache doc ∧
    ∃ push ∈ push? doc, IsMixed push.entriesOf

theorem findings_perm_iff :
    (∀ doc', Reorders doc doc' → (findings doc').Perm (findings doc)) ↔ ¬ OrderDecides doc := by
  obtain ⟨problem?, hproblem, hfindings⟩ := exists_findings_eq
  have hcaches : ∀ {doc'}, Reorders doc doc' → (Finding.underTextKey doc' "uses" problem?).Perm
      (Finding.underTextKey doc "uses" problem?) := by
    rintro doc' ⟨push, push', hreordered, hswap⟩
    exact Finding.underTextKey_perm_of_swap hswap hreordered "uses" problem?
  constructor
  · rintro hall ⟨hnames, hpublisher, huses, push, hpush, hmixed⟩
    obtain ⟨doc', hreorders, hother⟩ := exists_reorders_ne hnames hpush hmixed
    have hperm := hall doc' hreorders
    have hsame := hcaches hreorders
    refine (underTextKey_ne_nil_iff hproblem).mpr huses ?_
    rw [hfindings, hfindings, hasPublisher_of_reorders hreorders, hpublisher] at hperm
    cases hdoc : publishesOnEvent doc with
    | false =>
      have hdoc' : publishesOnEvent doc' = true := by rwa [hdoc, Ne, Bool.not_eq_false] at hother
      rw [hdoc, hdoc'] at hperm
      have hnone : Finding.underTextKey doc' "uses" problem? = [] := hperm.eq_nil
      rw [hnone] at hsame
      exact hsame.symm.eq_nil
    | true =>
      have hdoc' : publishesOnEvent doc' = false := by rwa [hdoc, Ne, Bool.not_eq_true] at hother
      rw [hdoc, hdoc'] at hperm
      exact hperm.symm.eq_nil
  · intro hnot doc' hreorders
    have hsame := hcaches hreorders
    rw [hfindings, hfindings, hasPublisher_of_reorders hreorders]
    by_cases huses : UsesCache doc
    · cases hpublisher : hasPublisher doc with
      | true => simpa using hsame
      | false =>
        have hevent : publishesOnEvent doc' = publishesOnEvent doc :=
          publishesOnEvent_of_reorders hreorders (or_iff_not_imp_left.mpr fun hnames hmixed =>
            hnot ⟨hnames, hpublisher, huses, hmixed⟩)
        rw [hevent]
        split
        · exact hsame
        · exact List.Perm.refl _
    · have hnone := not_ne_iff.mp (mt (underTextKey_ne_nil_iff hproblem).mp huses)
      rw [hnone] at hsame
      rw [hsame.eq_nil, hnone, ite_self, ite_self]

/-- A workflow publishes on an event if and only if releases are listed, or an entry of the settings
of pushes is for releases and none before it closes them. Such an entry is seen wherever it stands
unless one before all of these closes the settings. The findings are the same in any order of the
entries, unless there are entries of both kinds, nothing else says that the workflow publishes, and
it uses a cache. -/
theorem release_push_iff (doc : Value) :
    (publishesOnEvent doc = true ↔ "release" ∈ Event.names doc ∨
      ∃ push ∈ push? doc, ∃ before entry after, push.entriesOf = before ++ entry :: after ∧
        IsRelease entry ∧ ∀ earlier ∈ before, ¬ Closes earlier) ∧
    ((publishesOnEvent doc = true ↔ "release" ∈ Event.names doc ∨
      ∃ push ∈ push? doc, ∃ entry ∈ push.entriesOf, IsRelease entry) ↔
        ¬ ("release" ∉ Event.names doc ∧ ∃ push ∈ push? doc, Hides push.entriesOf)) ∧
    ((∀ doc', Reorders doc doc' → (findings doc').Perm (findings doc)) ↔ ¬ OrderDecides doc) := by
  refine ⟨?_, ?_, findings_perm_iff⟩
  · rw [publishesOnEvent_iff]
    simp only [isReleasePush_iff]
  · rw [publishesOnEvent_iff]
    cases push? doc with
    | none => simp
    | some push =>
      have hexists := @exists_release_of_isReleasePush push.entriesOf
      simp only [Option.mem_some_iff, exists_eq_left', hides_iff]
      by_cases hpush : isReleasePush push.entriesOf = true
      · simp [hpush, hexists hpush]
      · by_cases hnames : "release" ∈ Event.names doc <;> simp [hpush, hnames]

/-- A workflow with settings of pushes and a cache. -/
def sampleWorkflow (settings : Entries) : Value :=
  .mapping [(.string "on", .mapping [(.string "push", .mapping settings)]),
    (.string "jobs", .mapping [(.string "build", .mapping [(.string "steps", .sequence
      [.mapping [(.string "uses", .string "actions/cache@v4")]])])])]

/-- Tags are not seen behind a branch that is not for releases. -/
theorem findings_tags_behind :
    let tags : Value × Value := (.string "tags", .sequence [.string "v*"])
    let branches : Value × Value := (.string "branches", .sequence [.string "main"])
    IsRelease tags ∧ findings (sampleWorkflow [branches, tags]) = [] ∧
      (findings (sampleWorkflow [tags, branches])).map (·.location.text) =
        ["$.jobs.build.steps[0].uses"] := by
  exact ⟨.inl rfl, by decide, by decide⟩

end WorkflowRecipes.CachePoisoning
