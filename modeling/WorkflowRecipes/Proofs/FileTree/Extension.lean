import WorkflowRecipes.FileTree.Change
import WorkflowRecipes.Proofs.FileTree.Resolution

/-!
# File trees that hold more

A tree extends another if every entry of that one is still there and of the same kind. Files may
have other contents, and there may be further entries. Most changes of a run are of this sort.

Results:
1. `resolve_of_extends`: a path that leads to an entry leads there in every tree that extends the
   one it was followed in. `resolve_put_of_none`: so does one to a file that is new.
2. `makeAllDirectories_grows`: making directories adds directories and does nothing else.
3. `openFile_cases`: opening a file finds it, or adds an empty one.
-/

namespace WorkflowRecipes

/-- Entries of the same kind. Two files are alike whatever they hold; directories and links are
alike only if they are equal. -/
def FileEntry.IsLike : FileEntry → FileEntry → Prop
  | .file .., .file .. => True
  | .directory mode, .directory mode' => mode = mode'
  | .link target, .link target' => target = target'
  | _, _ => False

theorem FileEntry.IsLike.refl (entry : FileEntry) : entry.IsLike entry := by
  cases entry with
  | file => trivial
  | directory => rfl
  | link => rfl

theorem FileEntry.IsLike.trans {a b c : FileEntry} (hab : a.IsLike b) (hbc : b.IsLike c) :
    a.IsLike c := by
  cases a <;> cases b <;> cases c <;> simp_all [IsLike]

namespace FileTree

/-! ## Entries after a change -/

theorem get?_nil (tree : FileTree) : tree.get? [] = some (.directory directoryMode) := rfl

theorem ne_nil_of_get?_none {tree : FileTree} {route : Route} (h : tree.get? route = none) :
    route ≠ [] := by
  rintro rfl
  rw [get?_nil] at h
  cases h

theorem ne_nil_of_get?_file {tree : FileTree} {route : Route} {content : ByteArray} {mode : Nat}
    (h : tree.get? route = some (.file content mode)) : route ≠ [] := by
  rintro rfl
  rw [get?_nil] at h
  cases h

theorem get?_put {tree : FileTree} {route : Route} (h : route ≠ []) (other : Route)
    (entry : FileEntry) :
    (tree.put route entry).get? other = if route = other then some entry else tree.get? other := by
  unfold get?
  by_cases ho : other = []
  · subst ho
    simp [h]
  · simp [ho, getElem?_put]

theorem get?_put_self {tree : FileTree} {route : Route} (h : route ≠ []) (entry : FileEntry) :
    (tree.put route entry).get? route = some entry := by
  rw [get?_put h, if_pos rfl]

theorem get?_put_of_ne {tree : FileTree} {route other : Route} (h : route ≠ []) (hne : route ≠ other)
    (entry : FileEntry) : (tree.put route entry).get? other = tree.get? other := by
  rw [get?_put h, if_neg hne]

/-- The later of two entries put at a route stays. -/
theorem put_put (tree : FileTree) (route : Route) (entry later : FileEntry) :
    (tree.put route entry).put route later = tree.put route later := by
  ext1 other
  simp only [getElem?_put]
  split <;> rfl

/-- An entry that was put where nothing stood can be taken away again. -/
theorem erase_put {tree : FileTree} {route : Route} (h : tree.get? route = none)
    (entry : FileEntry) : (tree.put route entry).erase route = tree := by
  have hne := ne_nil_of_get?_none h
  ext1 other
  rw [getElem?_erase, getElem?_put]
  by_cases ho : route = other
  · subst ho
    simpa [get?, hne] using h.symm
  · simp [ho]

theorem overContent_put {tree : FileTree} {route : Route} (h : route ≠ []) (content : ByteArray)
    (mode : Nat) (f : ByteArray → ByteArray) :
    (tree.put route (.file content mode)).overContent route f =
      tree.put route (.file (f content) mode) := by
  simp only [overContent, get?_put_self h, put_put]

theorem setModeAt_put {tree : FileTree} {route : Route} (h : route ≠ []) (content : ByteArray)
    (mode mode' : Nat) :
    (tree.put route (.file content mode)).setModeAt route mode' =
      tree.put route (.file content mode') := by
  simp only [setModeAt, get?_put_self h, put_put]

theorem overContent_of_file {tree : FileTree} {route : Route} {content : ByteArray} {mode : Nat}
    (h : tree.get? route = some (.file content mode)) (f : ByteArray → ByteArray) :
    tree.overContent route f = tree.put route (.file (f content) mode) := by
  simp only [overContent, h]

theorem read_of_file {tree : FileTree} {home route : Route} {path : String} {content : ByteArray}
    {mode : Nat} (hr : tree.resolve home true path = .ok route)
    (hf : tree.get? route = some (.file content mode)) : tree.read home path = .ok content := by
  rw [read, entry, hr]
  simp only [Except.bind, hf]

theorem readText_of_file {tree : FileTree} {home route : Route} {path text : String} {mode : Nat}
    (hr : tree.resolve home true path = .ok route)
    (hf : tree.get? route = some (.file text.toUTF8 mode)) :
    tree.readText home path = .ok text := by
  have htext : String.fromUTF8? text.toUTF8 = some text := dif_pos text.isValidUTF8
  rw [readText, read_of_file hr hf, Except.bind]
  simp only [htext]

/-! ## Extension -/

/-- Every entry of the old tree is still in the new one and of the same kind. -/
def Extends (old new : FileTree) : Prop :=
  ∀ route entry, old.get? route = some entry →
    ∃ entry', new.get? route = some entry' ∧ entry.IsLike entry'

/-- The new tree differs from the old one only in directories where nothing stood. -/
def Grows (old new : FileTree) : Prop :=
  ∀ route, new.get? route = old.get? route ∨
    old.get? route = none ∧ ∃ mode, new.get? route = some (.directory mode)

theorem Extends.refl (tree : FileTree) : tree.Extends tree :=
  fun _ entry h => ⟨entry, h, .refl entry⟩

theorem Extends.trans {a b c : FileTree} (hab : a.Extends b) (hbc : b.Extends c) :
    a.Extends c := by
  intro route entry h
  obtain ⟨entry', h', hlike⟩ := hab route entry h
  obtain ⟨entry'', h'', hlike'⟩ := hbc route entry' h'
  exact ⟨entry'', h'', hlike.trans hlike'⟩

theorem Extends.directory {old new : FileTree} (h : old.Extends new) {route : Route} {mode : Nat}
    (hd : old.get? route = some (.directory mode)) : new.get? route = some (.directory mode) := by
  obtain ⟨entry, he, hlike⟩ := h route _ hd
  cases entry with
  | directory mode' => rw [he, show mode = mode' from hlike]
  | file => exact hlike.elim
  | link => exact hlike.elim

theorem Extends.link {old new : FileTree} (h : old.Extends new) {route : Route} {target : String}
    (hl : old.get? route = some (.link target)) : new.get? route = some (.link target) := by
  obtain ⟨entry, he, hlike⟩ := h route _ hl
  cases entry with
  | link target' => rw [he, show target = target' from hlike]
  | file => exact hlike.elim
  | directory => exact hlike.elim

theorem Extends.file {old new : FileTree} (h : old.Extends new) {route : Route}
    {content : ByteArray} {mode : Nat} (hf : old.get? route = some (.file content mode)) :
    ∃ content' mode', new.get? route = some (.file content' mode') := by
  obtain ⟨entry, he, hlike⟩ := h route _ hf
  cases entry with
  | file content' mode' => exact ⟨content', mode', he⟩
  | directory => exact hlike.elim
  | link => exact hlike.elim

theorem extends_put_of_none {tree : FileTree} {route : Route} (h : tree.get? route = none)
    (entry : FileEntry) : tree.Extends (tree.put route entry) := by
  intro other before hb
  have hne : route ≠ other := by
    rintro rfl
    rw [h] at hb
    cases hb
  exact ⟨before, by rw [get?_put_of_ne (ne_nil_of_get?_none h) hne, hb], .refl before⟩

theorem extends_put_of_file {tree : FileTree} {route : Route} {content : ByteArray} {mode : Nat}
    (h : tree.get? route = some (.file content mode)) (content' : ByteArray) (mode' : Nat) :
    tree.Extends (tree.put route (.file content' mode')) := by
  intro other before hb
  by_cases hne : route = other
  · subst hne
    rw [h] at hb
    cases hb
    exact ⟨_, get?_put_self (ne_nil_of_get?_file h) _, trivial⟩
  · exact ⟨before, by rw [get?_put_of_ne (ne_nil_of_get?_file h) hne, hb], .refl before⟩

theorem Grows.refl (tree : FileTree) : tree.Grows tree := fun _ => .inl rfl

theorem Grows.trans {a b c : FileTree} (hab : a.Grows b) (hbc : b.Grows c) : a.Grows c := by
  intro route
  rcases hbc route with h | ⟨h, mode, hm⟩
  · rcases hab route with h' | ⟨h', mode, hm⟩
    · exact .inl (h.trans h')
    · exact .inr ⟨h', mode, h.trans hm⟩
  · rcases hab route with h' | ⟨_, mode', hm'⟩
    · exact .inr ⟨h' ▸ h, mode, hm⟩
    · rw [h] at hm'
      cases hm'

theorem Grows.extends {old new : FileTree} (h : old.Grows new) : old.Extends new := by
  intro route entry he
  rcases h route with h | ⟨h, _⟩
  · exact ⟨entry, by rw [h, he], .refl entry⟩
  · rw [he] at h
    cases h

/-- A tree that grew holds the files it held, and no others. -/
theorem Grows.get?_file_iff {old new : FileTree} (h : old.Grows new) {route : Route}
    {content : ByteArray} {mode : Nat} :
    new.get? route = some (.file content mode) ↔ old.get? route = some (.file content mode) := by
  rcases h route with h | ⟨h, mode', hm⟩
  · rw [h]
  · simp [h, hm]

/-! ## Paths -/

/-- A link of a tree that extends another stands where that one had the same link or nothing. -/
theorem Extends.link_or_none {old new : FileTree} (h : old.Extends new) {route : Route}
    {target : String} (hl : new.get? route = some (.link target)) :
    old.get? route = some (.link target) ∨ old.get? route = none := by
  cases hold : old.get? route with
  | none => exact .inr rfl
  | some entry =>
    obtain ⟨entry', he, hlike⟩ := h route entry hold
    rw [hl] at he
    cases he
    cases entry with
    | link target' => exact .inl (by rw [show target' = target from hlike])
    | file => exact hlike.elim
    | directory => exact hlike.elim

/-- Names lead where they led before in a tree with more in it, unless there is a link now. -/
theorem Leads.of_extends {old new : FileTree} (h : old.Extends new) {followLast : Bool}
    {found here : Route} {links : Nat} {names : List String}
    (hfound : old.get? found = none → ∀ target, new.get? found ≠ some (.link target))
    (hold : old.Leads followLast found links here names) :
    new.Leads followLast found links here names := by
  induction hold with
  | done => exact .done
  | stay hhere _ ih => exact .stay (h.directory hhere) ih
  | up hhere _ ih => exact .up (h.directory hhere) ih
  | @down links mode here name rest hhere hname hnext hrest ih =>
    refine .down (h.directory hhere) hname (fun target hlink => ?_) ih
    rcases h.link_or_none hlink with hbefore | hnone
    · exact hnext target hbefore
    · -- Nothing stood here, so this is the place that was found.
      have heq := hrest.eq_found_of_none hnone
      exact hfound (heq ▸ hnone) target (heq ▸ hlink)
  | through hhere hname hnext hmore _ ih =>
    exact .through (h.directory hhere) hname (h.link hnext) hmore ih
  | atLink hhere hname hnext hlast heq =>
    exact .atLink (h.directory hhere) hname (h.link hnext) hlast heq

/-- A path still leads to the same place in a tree with more in it, unless there is a link now. -/
theorem resolve_of_extends_of_ne_link {old new : FileTree} (h : old.Extends new) {home : Route}
    {followLast : Bool} {path : String} {found : Route}
    (hfound : old.get? found = none → ∀ target, new.get? found ≠ some (.link target))
    (hr : old.resolve home followLast path = .ok found) :
    new.resolve home followLast path = .ok found := by
  rw [resolve_eq_ok_iff] at hr ⊢
  exact ⟨hr.1, hr.2.of_extends h hfound⟩

/-- A path that leads to an entry still leads there in a tree with more in it. -/
theorem resolve_of_extends {old new : FileTree} (h : old.Extends new) {home : Route}
    {followLast : Bool} {path : String} {found : Route} (hfound : (old.get? found).isSome)
    (hr : old.resolve home followLast path = .ok found) :
    new.resolve home followLast path = .ok found := by
  refine resolve_of_extends_of_ne_link h ?_ hr
  intro hnone
  rw [hnone] at hfound
  cases hfound

/-- A path that leads nowhere yet leads to the file that is put there. -/
theorem resolve_put_of_none {tree : FileTree} {home : Route} {followLast : Bool} {path : String}
    {found : Route} (hnone : tree.get? found = none)
    (hr : tree.resolve home followLast path = .ok found) (content : ByteArray) (mode : Nat) :
    (tree.put found (.file content mode)).resolve home followLast path = .ok found := by
  refine resolve_of_extends_of_ne_link (extends_put_of_none hnone _) ?_ hr
  intro _ target hlink
  rw [get?_put_self (ne_nil_of_get?_none hnone)] at hlink
  cases hlink

/-! ## Making directories and files -/

theorem makeDirectory_grows {tree after : FileTree} {home : Route} {path : String}
    (h : tree.makeDirectory home path = .ok after) : tree.Grows after := by
  unfold makeDirectory at h
  cases hr : tree.resolve home false path with
  | error fault => simp [hr, Except.bind] at h
  | ok route =>
    simp only [hr, Except.bind] at h
    split at h
    · cases h
    · next hnone =>
      have hnone : tree.get? route = none := by simpa using hnone
      cases h
      intro other
      by_cases ho : route = other
      · subst ho
        exact .inr ⟨hnone, _, get?_put_self (ne_nil_of_get?_none hnone) _⟩
      · exact .inl (get?_put_of_ne (ne_nil_of_get?_none hnone) ho _)

theorem ensureDirectory_grows {tree after : FileTree} {home : Route} {path : String}
    (h : tree.ensureDirectory home path = .ok after) : tree.Grows after := by
  unfold ensureDirectory at h
  split at h
  · next hm =>
    cases h
    exact makeDirectory_grows hm
  · split at h
    · cases h
      exact .refl tree
    · cases h

theorem makeDirectories_grows {tree after : FileTree} {home : Route} {bound : Nat} {path : String}
    (h : tree.makeDirectories home bound path = .ok after) : tree.Grows after := by
  induction bound generalizing path after with
  | zero =>
    cases h
    exact .refl tree
  | succ bound ih =>
    rw [makeDirectories] at h
    split at h
    · cases h
      exact .refl tree
    split at h
    · split at h
      · cases h
      · next parent _ =>
        cases hp : tree.makeDirectories home bound parent with
        | error fault => simp [hp, Except.bind] at h
        | ok middle =>
          simp only [hp, Except.bind] at h
          exact (ih hp).trans (ensureDirectory_grows h)
    · exact ensureDirectory_grows h

theorem makeAllDirectories_grows {tree after : FileTree} {home : Route} {path : String}
    (h : tree.makeAllDirectories home path = .ok after) : tree.Grows after :=
  makeDirectories_grows h

/-- An opened file is where its path leads. It was there before, or nothing was and it is empty
now. -/
theorem openFile_cases {tree after : FileTree} {home route : Route} {path : String}
    (h : tree.openFile home path = .ok (route, after)) :
    tree.resolve home true path = .ok route ∧
      ((∃ content mode, tree.get? route = some (.file content mode)) ∧ after = tree ∨
        tree.get? route = none ∧ after = tree.put route (.file .empty fileMode)) := by
  unfold openFile at h
  split at h
  · cases h
  cases hr : tree.resolve home true path with
  | error fault => simp [hr, Except.bind] at h
  | ok found =>
    simp only [hr, Except.bind] at h
    split at h
    · next content mode hfile =>
      cases h
      exact ⟨rfl, .inl ⟨⟨content, mode, hfile⟩, rfl⟩⟩
    · cases h
    · next hnone =>
      cases h
      exact ⟨rfl, .inr ⟨hnone, rfl⟩⟩

end FileTree

end WorkflowRecipes
