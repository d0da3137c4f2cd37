import Mathlib.Data.List.Nodup
import WorkflowRecipes.Proofs.Plan.Discovery
import WorkflowRecipes.Proofs.Text.Octets

/-!
# Walks through directories

`FileTree.below` reads the entries below a directory off the whole tree. A walk meets them one
directory at a time: it reads the names in a directory, puts them in order, and goes through each
directory among them before it takes the next name. Both give the same entries in the same order,
which is that of the routes, name by name.

Results:
1. `mem_below_iff`, `below_sorted`: the entries below a route are those that the tree holds there,
   in the order of their routes.
2. `Walk.eq_below`: a walk through a directory gives the entries below it.
3. `exists_walk`: there is a walk through every directory.
4. `putAll_perm`: entries that are put at different routes give the same tree in any order.
-/

namespace WorkflowRecipes

namespace FileTree

/-- Entries with their routes, each route before the next. -/
def IsSorted (places : List (Route × FileEntry)) : Prop :=
  places.Pairwise fun a b => Octets.NamesLt a.1 b.1

theorem IsSorted.nodup {places : List (Route × FileEntry)} (h : IsSorted places) :
    places.Nodup := by
  refine h.imp ?_
  rintro a _ hlt rfl
  exact Octets.not_namesLt_self _ hlt

/-- Sorted entries are determined by which they are. -/
theorem IsSorted.eq_of_mem_iff {places places' : List (Route × FileEntry)} (h : IsSorted places)
    (h' : IsSorted places') (hmem : ∀ place, place ∈ places ↔ place ∈ places') :
    places = places' :=
  List.Perm.eq_of_pairwise (fun _ _ _ _ hab hba => absurd hba hab.asymm) h h'
    ((List.perm_ext_iff_of_nodup h.nodup h'.nodup).mpr hmem)

variable {tree : FileTree} {here base rest : Route} {entry : FileEntry}

/-! ## The entries below a route -/

theorem mem_below_iff :
    (rest, entry) ∈ tree.below base ↔ tree.get? (base ++ rest) = some entry ∧ rest ≠ [] := by
  refine ⟨mem_below, ?_⟩
  rintro ⟨hget, hrest⟩
  rw [get?, if_neg (List.append_ne_nil_of_right_ne_nil _ hrest)] at hget
  have hbelow : (base.isPrefixOf (base ++ rest) && base ++ rest != base) = true := by simp [hrest]
  refine List.mem_filterMap.mpr
    ⟨_, Std.ExtTreeMap.mem_toList_iff_getElem?_eq_some.mpr hget, ?_⟩
  simp only [hbelow, if_true, List.drop_left]

theorem below_sorted (tree : FileTree) (base : Route) : IsSorted (tree.below base) := by
  refine pairwise_below (Std.ExtTreeMap.ordered_keys_toList.imp ?_)
  rintro ⟨route, entry⟩ ⟨route', entry'⟩ hlt rest rest' h h'
  rw [← Octets.namesLt_iff_compare, h, h'] at hlt
  exact Octets.namesLt_append_left.mp hlt

/-! ## Walks -/

/-- The names of what stands in a directory, each before the next. -/
structure Lists (tree : FileTree) (here : Route) (names : List String) : Prop where
  sorted : names.Pairwise fun a b => Octets.ofText a < Octets.ofText b
  mem_iff : ∀ name, name ∈ names ↔ (tree.get? (here ++ [name])).isSome

/-- Entries below a directory of some name, as they stand below the one that it is in. -/
def under (name : String) (places : List (Route × FileEntry)) : List (Route × FileEntry) :=
  places.map (Prod.map (name :: ·) id)

/-- A directory and what is below it stand under its name. -/
theorem exists_of_mem_under {name : String} {inner : List (Route × FileEntry)}
    {place : Route × FileEntry} (h : place ∈ ([name], entry) :: under name inner) :
    ∃ more, place.1 = name :: more := by
  rcases List.mem_cons.mp h with rfl | h
  · exact ⟨[], rfl⟩
  · obtain ⟨below, -, rfl⟩ := List.mem_map.mp h
    exact ⟨below.1, rfl⟩

theorem mem_under {name first : String} {more : List String} {inner : List (Route × FileEntry)} :
    (name :: more, entry) ∈ under first inner ↔ name = first ∧ (more, entry) ∈ inner := by
  simp [under, eq_comm (a := first), and_left_comm]

theorem Lists.mem_of_get? {names : List String} (hwf : tree.WellFormed)
    (h : tree.Lists here names) {name : String} {more : List String}
    (hget : tree.get? (here ++ name :: more) = some entry) : name ∈ names := by
  rw [h.mem_iff]
  rw [List.append_cons] at hget
  by_cases hmore : more = []
  · subst hmore
    rw [List.append_nil] at hget
    exact Option.isSome_of_mem hget
  · obtain ⟨mode, hmode⟩ := hwf.directory hget hmore
    exact Option.isSome_of_mem hmode

/-- The entries that a walk meets which takes some names of a directory one after another. Behind a
directory comes all that a walk through it meets, before the next name is taken. Links are not
followed, and the routes start below the directory. -/
inductive Walk (tree : FileTree) : Route → List String → List (Route × FileEntry) → Prop where
  | done {here : Route} : Walk tree here [] []
  | entry {here : Route} {name : String} {names : List String} {found : FileEntry}
      {walked : List (Route × FileEntry)} (hfound : tree.get? (here ++ [name]) = some found)
      (hkind : ∀ mode, found ≠ .directory mode) (hrest : Walk tree here names walked) :
      Walk tree here (name :: names) (([name], found) :: walked)
  | directory {here : Route} {name : String} {names inside : List String} {mode : Nat}
      {inner walked : List (Route × FileEntry)}
      (hfound : tree.get? (here ++ [name]) = some (.directory mode))
      (hlists : tree.Lists (here ++ [name]) inside)
      (hinner : Walk tree (here ++ [name]) inside inner) (hrest : Walk tree here names walked) :
      Walk tree here (name :: names)
        (([name], .directory mode) :: under name inner ++ walked)

section Walk

variable {names : List String} {walked : List (Route × FileEntry)}

/-- What a walk meets stands under one of the names that it takes. -/
theorem Walk.head_mem (h : tree.Walk here names walked) {place : Route × FileEntry}
    (hmem : place ∈ walked) : ∃ name ∈ names, ∃ more, place.1 = name :: more := by
  induction h with
  | done => exact absurd hmem List.not_mem_nil
  | @entry _ name names found walked _ _ _ ih =>
    rcases List.mem_cons.mp hmem with rfl | hmem
    · exact ⟨name, List.mem_cons_self, [], rfl⟩
    · obtain ⟨name', hname, more, hroute⟩ := ih hmem
      exact ⟨name', List.mem_cons_of_mem _ hname, more, hroute⟩
  | @directory _ name names inside mode inner walked _ _ _ _ _ ih =>
    rcases List.mem_append.mp hmem with hmem | hmem
    · exact ⟨name, List.mem_cons_self, exists_of_mem_under hmem⟩
    · obtain ⟨name', hname, more, hroute⟩ := ih hmem
      exact ⟨name', List.mem_cons_of_mem _ hname, more, hroute⟩

theorem Walk.nil_not_mem (h : tree.Walk here names walked) (entry : FileEntry) :
    ([], entry) ∉ walked := by
  intro hmem
  obtain ⟨_, -, _, hroute⟩ := h.head_mem hmem
  cases hroute

/-- What is met under a name comes before what is met under the names after it. -/
theorem Walk.namesLt_of_mem (h : tree.Walk here names walked) {name : String}
    (hbefore : ∀ later ∈ names, Octets.ofText name < Octets.ofText later)
    {place : Route × FileEntry} (hmem : place ∈ walked) (more : List String) :
    Octets.NamesLt (name :: more) place.1 := by
  obtain ⟨later, hlater, after, hroute⟩ := h.head_mem hmem
  rw [hroute, Octets.namesLt_cons_cons]
  exact .inl (hbefore later hlater)

/-- A walk meets the entries in the order of their routes. -/
theorem Walk.sorted (h : tree.Walk here names walked)
    (hnames : names.Pairwise fun a b => Octets.ofText a < Octets.ofText b) : IsSorted walked := by
  induction h with
  | done => exact List.Pairwise.nil
  | @entry _ name names found walked _ _ hrest ih =>
    obtain ⟨hbefore, hnames⟩ := List.pairwise_cons.mp hnames
    exact List.pairwise_cons.mpr
      ⟨fun _ hmem => hrest.namesLt_of_mem hbefore hmem [], ih hnames⟩
  | @directory _ name names inside mode inner walked _ hlists hinner hrest ihInner ih =>
    obtain ⟨hbefore, hnames⟩ := List.pairwise_cons.mp hnames
    refine List.pairwise_append.mpr ⟨List.pairwise_cons.mpr ⟨?_, ?_⟩, ih hnames, ?_⟩
    · -- The directory itself comes before what is in it.
      rintro _ hmem
      obtain ⟨place, hplace, rfl⟩ := List.mem_map.mp hmem
      obtain ⟨first, -, more, hroute⟩ := hinner.head_mem hplace
      rw [Prod.map_fst, hroute, Octets.namesLt_cons_cons]
      exact .inr ⟨rfl, Octets.namesLt_nil_cons _ _⟩
    · refine List.pairwise_map.mpr ((ihInner hlists.sorted).imp ?_)
      intro a b hlt
      exact Octets.namesLt_cons_cons.mpr (.inr ⟨rfl, hlt⟩)
    · intro place hmem later hlater
      obtain ⟨more, hroute⟩ := exists_of_mem_under hmem
      rw [hroute]
      exact hrest.namesLt_of_mem hbefore hlater more

/-- Nothing stands below an entry that is no directory. -/
theorem WellFormed.get?_below_iff (hwf : tree.WellFormed) {name : String} {found : FileEntry}
    (hfound : tree.get? (here ++ [name]) = some found) (hkind : ∀ mode, found ≠ .directory mode)
    (more : List String) (entry : FileEntry) :
    tree.get? (here ++ name :: more) = some entry ↔ more = [] ∧ entry = found := by
  cases more with
  | nil => simp [hfound, eq_comm]
  | cons next more =>
    refine iff_of_false ?_ (by simp)
    intro hget
    rw [List.append_cons] at hget
    obtain ⟨mode, hmode⟩ := hwf.directory hget (List.cons_ne_nil _ _)
    rw [hfound, Option.some.injEq] at hmode
    exact hkind mode hmode

/-- A walk meets the entries that the tree holds under the names that it takes. -/
theorem Walk.mem_iff (hwf : tree.WellFormed) (h : tree.Walk here names walked) (name : String)
    (more : List String) (entry : FileEntry) :
    (name :: more, entry) ∈ walked ↔
      name ∈ names ∧ tree.get? (here ++ name :: more) = some entry := by
  induction h generalizing name more with
  | done => simp
  | @entry here first names found walked hfound hkind hrest ih =>
    have hfirst : (name :: more, entry) = ([first], found) ↔
        name = first ∧ tree.get? (here ++ name :: more) = some entry := by
      rw [Prod.mk.injEq, List.cons.injEq, and_assoc]
      refine and_congr_right ?_
      rintro rfl
      exact (hwf.get?_below_iff hfound hkind more entry).symm
    rw [List.mem_cons, List.mem_cons, ih, hfirst, or_and_right]
  | @directory here first names inside mode inner walked hfound hlists hinner hrest ihInner ih =>
    -- The names in the directory are all listed, so what is below it is met under one of them.
    have hfirst : (name :: more, entry) ∈ ([first], .directory mode) :: under first inner ↔
        name = first ∧ tree.get? (here ++ name :: more) = some entry := by
      rw [List.mem_cons, Prod.mk.injEq, List.cons.injEq, and_assoc, mem_under, ← and_or_left]
      refine and_congr_right ?_
      rintro rfl
      cases more with
      | nil => simp [hfound, hinner.nil_not_mem, eq_comm]
      | cons next more =>
        rw [ihInner, and_iff_right_of_imp fun hget => hlists.mem_of_get? hwf hget,
          ← List.append_cons]
        simp
    rw [List.mem_append, hfirst, ih, List.mem_cons, or_and_right]

/-- A walk through a directory meets the entries below it, as they are ordered there. -/
theorem Walk.eq_below (hwf : tree.WellFormed) (hlists : tree.Lists here names)
    (h : tree.Walk here names walked) : walked = tree.below here := by
  refine (h.sorted hlists.sorted).eq_of_mem_iff (below_sorted tree here) ?_
  rintro ⟨rest, entry⟩
  rw [mem_below_iff]
  cases rest with
  | nil => exact iff_of_false (h.nil_not_mem entry) (by simp)
  | cons name more =>
    rw [h.mem_iff hwf]
    constructor
    · rintro ⟨-, hget⟩
      exact ⟨hget, List.cons_ne_nil _ _⟩
    · rintro ⟨hget, -⟩
      exact ⟨hlists.mem_of_get? hwf hget, hget⟩

end Walk

/-! ## There is a walk through every directory -/

/-- The name of which a route consists, if it is one. -/
def singleName? : Route → Option String
  | [name] => some name
  | _ => none

theorem singleName?_eq_some {route : Route} {name : String} :
    singleName? route = some name ↔ route = [name] := by
  unfold singleName?
  split <;> simp_all

/-- The names of what stands in a directory. -/
def names (tree : FileTree) (here : Route) : List String :=
  (tree.below here).filterMap fun place => singleName? place.1

theorem lists_names (tree : FileTree) (here : Route) : tree.Lists here (tree.names here) := by
  constructor
  · refine List.pairwise_filterMap.mpr ((below_sorted tree here).imp ?_)
    rintro ⟨route, _⟩ ⟨route', _⟩ hlt name hname name' hname'
    obtain rfl := singleName?_eq_some.mp hname
    obtain rfl := singleName?_eq_some.mp hname'
    rcases Octets.namesLt_cons_cons.mp hlt with hoctets | ⟨-, hnil⟩
    · exact hoctets
    · exact absurd hnil (Octets.not_namesLt_nil _)
  · intro name
    simp only [names, List.mem_filterMap, singleName?_eq_some, Prod.exists,
      Option.isSome_iff_exists, mem_below_iff]
    constructor
    · rintro ⟨_, entry, ⟨hget, -⟩, rfl⟩
      exact ⟨entry, hget⟩
    · rintro ⟨entry, hget⟩
      exact ⟨[name], entry, ⟨hget, List.cons_ne_nil _ _⟩, rfl⟩

/-- Names of what stands in a directory can be walked when the directories among them can. -/
theorem exists_walk_of_names {names : List String}
    (hinside : ∀ name mode, tree.get? (here ++ [name]) = some (.directory mode) →
      ∃ inner, tree.Walk (here ++ [name]) (tree.names (here ++ [name])) inner)
    (hnames : ∀ name ∈ names, (tree.get? (here ++ [name])).isSome) :
    ∃ walked, tree.Walk here names walked := by
  induction names with
  | nil => exact ⟨[], .done⟩
  | cons name names ih =>
    obtain ⟨hname, hlater⟩ := List.forall_mem_cons.mp hnames
    obtain ⟨walked, hwalked⟩ := ih hlater
    obtain ⟨found, hfound⟩ := Option.isSome_iff_exists.mp hname
    by_cases hkind : ∃ mode, found = .directory mode
    · obtain ⟨mode, rfl⟩ := hkind
      obtain ⟨inner, hinner⟩ := hinside name mode hfound
      exact ⟨_, .directory hfound (lists_names tree _) hinner hwalked⟩
    · exact ⟨_, .entry hfound (fun mode hmode => hkind ⟨mode, hmode⟩) hwalked⟩

/-- There is a walk through a directory of bounded depth, by induction on that depth. -/
theorem exists_walk_of_depth (depth : Nat) (here : Route)
    (hdepth : ∀ rest, (tree.get? (here ++ rest)).isSome → rest.length ≤ depth) :
    ∃ walked, tree.Walk here (tree.names here) walked := by
  have hnames : ∀ name ∈ tree.names here, (tree.get? (here ++ [name])).isSome :=
    fun name => ((lists_names tree here).mem_iff name).mp
  induction depth generalizing here with
  | zero =>
    refine exists_walk_of_names (fun name mode hfound => ?_) hnames
    exact absurd (hdepth [name] (Option.isSome_of_mem hfound)) (Nat.not_succ_le_zero 0)
  | succ depth ih =>
    refine exists_walk_of_names (fun name mode _ => ih _ (fun rest hrest => ?_) ?_) hnames
    · rw [List.append_assoc] at hrest
      exact Nat.le_of_succ_le_succ (hdepth _ hrest)
    · exact fun later => ((lists_names tree _).mem_iff later).mp

/-- There is a walk through every directory, since a tree has finitely many entries. -/
theorem exists_walk (tree : FileTree) (here : Route) :
    ∃ walked, tree.Walk here (tree.names here) walked := by
  let depths := (tree.below here).map fun place => place.1.length
  refine exists_walk_of_depth (depths.max?.getD 0) here fun rest hrest => ?_
  obtain ⟨entry, hentry⟩ := Option.isSome_iff_exists.mp hrest
  by_cases hnil : rest = []
  · simp [hnil]
  · exact List.le_max?_getD_of_mem
      (List.mem_map.mpr ⟨(rest, entry), mem_below_iff.mpr ⟨hentry, hnil⟩, rfl⟩)

/-! ## Entries put one after another -/

/-- The tree with entries put at their routes, one after another. -/
def putAll (tree : FileTree) (places : List (Route × FileEntry)) : FileTree :=
  places.foldl (fun tree place => tree.put place.1 place.2) tree

theorem put_comm (tree : FileTree) {route other : Route} (h : route ≠ other)
    (entry entry' : FileEntry) :
    (tree.put route entry).put other entry' = (tree.put other entry').put route entry := by
  ext1 third
  simp only [getElem?_put]
  by_cases hthird : other = third
  · rw [if_pos hthird, if_neg (fun heq => h (heq.trans hthird.symm)), if_pos hthird]
  · rw [if_neg hthird, if_neg hthird]

/-- Entries that are put at different routes give the same tree in any order. -/
theorem putAll_perm {places places' : List (Route × FileEntry)} (hperm : places.Perm places')
    (hroutes : (places.map Prod.fst).Nodup) (tree : FileTree) :
    tree.putAll places = tree.putAll places' := by
  refine hperm.foldl_eq' ?_ tree
  intro place hplace other hother tree
  by_cases hsame : place = other
  · rw [hsame]
  · refine put_comm tree ?_ _ _
    intro hroute
    exact hsame (List.inj_on_of_nodup_map hroutes hplace hother hroute)

end FileTree

end WorkflowRecipes
