import WorkflowRecipes.FileTree.Resolve

/-!
# Where paths lead

`FileTree.resolve` as a relation: how names lead from a route to another, one name or link at a
time. Changes of a tree that keep directories and links keep each of these steps.

Results:
1. `followLinks_eq_ok_iff`, `resolve_eq_ok_iff`: the relation is what is computed.
2. `Leads.append`: further names lead on from where the first ones led.
-/

namespace WorkflowRecipes

namespace FileTree

variable {tree : FileTree} {followLast : Bool} {found here : Route} {links : Nat}
  {names rest : List String}

/-- Whether a name can be that of an entry: it is not one of the two for a directory itself and the
one above, and not too long. -/
def EntryName (name : String) : Prop :=
  name ≠ "." ∧ name ≠ ".." ∧ name.utf8ByteSize ≤ longestName

/-- Names lead from a route to the one that is found, through at most a number of links. Whatever
has a name after it is a directory or a link. A link that is the last name is followed only if
`followLast` holds. -/
inductive Leads (tree : FileTree) (followLast : Bool) (found : Route) :
    Nat → Route → List String → Prop
  | done {links : Nat} : Leads tree followLast found links found []
  | stay {links mode : Nat} {here : Route} {rest : List String} :
      tree.get? here = some (.directory mode) → Leads tree followLast found links here rest →
      Leads tree followLast found links here ("." :: rest)
  | up {links mode : Nat} {here : Route} {rest : List String} :
      tree.get? here = some (.directory mode) →
      Leads tree followLast found links here.dropLast rest →
      Leads tree followLast found links here (".." :: rest)
  | down {links mode : Nat} {here : Route} {name : String} {rest : List String} :
      tree.get? here = some (.directory mode) → EntryName name →
      (∀ target, tree.get? (here ++ [name]) ≠ some (.link target)) →
      Leads tree followLast found links (here ++ [name]) rest →
      Leads tree followLast found links here (name :: rest)
  | through {links mode : Nat} {here : Route} {name target : String} {rest : List String} :
      tree.get? here = some (.directory mode) → EntryName name →
      tree.get? (here ++ [name]) = some (.link target) → (rest.isEmpty && !followLast) = false →
      Leads tree followLast found links (if Path.isRooted target then [] else here)
        (Path.names target ++ rest) →
      Leads tree followLast found (links + 1) here (name :: rest)
  | atLink {links mode : Nat} {here : Route} {name target : String} :
      tree.get? here = some (.directory mode) → EntryName name →
      tree.get? (here ++ [name]) = some (.link target) → followLast = false →
      here ++ [name] = found → Leads tree followLast found links here [name]

/-! ## What is computed -/

/-- A place that is found by following names is one that they lead to, where this is so of the
links on the way. -/
theorem leads_of_follow {onLink : Route → List String → Except FileFault Route}
    (hlink : ∀ here names, onLink here names = .ok found →
      ∃ fewer, links = fewer + 1 ∧ tree.Leads followLast found fewer here names) :
    ∀ (names : List String) (here : Route), tree.follow followLast onLink here names = .ok found →
      tree.Leads followLast found links here names
  | [], here, h => by
    cases h
    exact .done
  | name :: rest, here, h => by
    rw [follow] at h
    split at h
    · cases h
    · next mode hhere =>
      by_cases hdot : name = "."
      · rw [if_pos hdot] at h
        exact hdot ▸ .stay hhere (leads_of_follow hlink rest _ h)
      rw [if_neg hdot] at h
      by_cases hup : name = ".."
      · rw [if_pos hup] at h
        exact hup ▸ .up hhere (leads_of_follow hlink rest _ h)
      rw [if_neg hup] at h
      by_cases hlong : longestName < name.utf8ByteSize
      · rw [if_pos hlong] at h
        cases h
      rw [if_neg hlong] at h
      have hname : EntryName name := ⟨hdot, hup, Nat.not_lt.mp hlong⟩
      dsimp only at h
      split at h
      · next target hnext =>
        split at h
        · next hlast =>
          cases h
          obtain ⟨hrest, hfollow⟩ : rest = [] ∧ followLast = false := by simpa using hlast
          subst hrest
          exact .atLink hhere hname hnext hfollow rfl
        · next hlast =>
          obtain ⟨fewer, rfl, hleads⟩ := hlink _ _ h
          exact .through hhere hname hnext (Bool.eq_false_iff.mpr hlast) hleads
      · next hnext => exact .down hhere hname hnext (leads_of_follow hlink rest _ h)
    · cases h

theorem leads_of_followLinks (h : tree.followLinks followLast links here names = .ok found) :
    tree.Leads followLast found links here names := by
  induction links generalizing here names with
  | zero => exact leads_of_follow (fun _ _ hl => by cases hl) names here h
  | succ links ih => exact leads_of_follow (fun _ _ hl => ⟨links, rfl, ih hl⟩) names here h

/-- Following names through links is following them, whatever the number of links. -/
theorem followLinks_eq_follow (tree : FileTree) (followLast : Bool) (links : Nat) :
    ∃ onLink, tree.followLinks followLast links = tree.follow followLast onLink := by
  cases links with
  | zero => exact ⟨_, rfl⟩
  | succ links => exact ⟨_, rfl⟩

theorem Leads.followLinks (h : tree.Leads followLast found links here names) :
    tree.followLinks followLast links here names = .ok found := by
  induction h with
  | @done links =>
    obtain ⟨onLink, hfollow⟩ := followLinks_eq_follow tree followLast links
    rw [hfollow, follow]
  | @stay links mode here rest hhere _ ih =>
    obtain ⟨onLink, hfollow⟩ := followLinks_eq_follow tree followLast links
    rw [hfollow] at ih ⊢
    simp only [follow, hhere, if_pos, ih]
  | @up links mode here rest hhere _ ih =>
    obtain ⟨onLink, hfollow⟩ := followLinks_eq_follow tree followLast links
    rw [hfollow] at ih ⊢
    simp only [follow, hhere, if_pos, ih]
    rfl
  | @down links mode here name rest hhere hname hnext _ ih =>
    obtain ⟨onLink, hfollow⟩ := followLinks_eq_follow tree followLast links
    rw [hfollow] at ih ⊢
    simp only [follow, hhere, if_neg hname.1, if_neg hname.2.1, if_neg (Nat.not_lt.mpr hname.2.2),
      ih]
  | through hhere hname hnext hmore _ ih =>
    rw [FileTree.followLinks, follow]
    simp only [hhere, if_neg hname.1, if_neg hname.2.1, if_neg (Nat.not_lt.mpr hname.2.2), hnext,
      hmore, ih, Bool.false_eq_true, if_false]
  | @atLink links mode here name target hhere hname hnext hlast hfound =>
    obtain ⟨onLink, hfollow⟩ := followLinks_eq_follow tree followLast links
    rw [hfollow, follow]
    simp only [hhere, if_neg hname.1, if_neg hname.2.1, if_neg (Nat.not_lt.mpr hname.2.2), hnext,
      hlast, List.isEmpty_nil, Bool.not_false, Bool.and_self, if_true]
    rw [hfound]

theorem followLinks_eq_ok_iff :
    tree.followLinks followLast links here names = .ok found ↔
      tree.Leads followLast found links here names :=
  ⟨leads_of_followLinks, Leads.followLinks⟩

/-- Where a path leads, in terms of its names. -/
theorem resolve_eq_ok_iff {home : Route} {path : String} :
    tree.resolve home followLast path = .ok found ↔
      path ≠ "" ∧ tree.Leads followLast found mostLinks (if Path.isRooted path then [] else home)
        (Path.names path) := by
  unfold resolve
  split
  · next hempty => simp [hempty]
  · next hne => rw [followLinks_eq_ok_iff, and_iff_right hne]

/-! ## Names in a row -/

/-- Only the place that is found need not be there. -/
theorem Leads.eq_found_of_none (h : tree.Leads followLast found links here names)
    (hnone : tree.get? here = none) : here = found := by
  cases h with
  | done => rfl
  | stay hhere => simp [hnone] at hhere
  | up hhere => simp [hnone] at hhere
  | down hhere => simp [hnone] at hhere
  | through hhere => simp [hnone] at hhere
  | atLink hhere => simp [hnone] at hhere

/-- Further names lead on from where the first ones led. A link that was the last of the first ones
is followed either way. -/
theorem Leads.append {middle : Route} (h : tree.Leads true middle links here names)
    (hrest : rest ≠ []) (hon : ∀ links, tree.Leads followLast found links middle rest) :
    tree.Leads followLast found links here (names ++ rest) := by
  induction h with
  | done => exact hon _
  | stay hhere _ ih => exact .stay hhere ih
  | up hhere _ ih => exact .up hhere ih
  | down hhere hname hnext _ ih => exact .down hhere hname hnext ih
  | through hhere hname hnext _ _ ih =>
    rw [List.append_assoc] at ih
    exact .through hhere hname hnext (by simp [hrest]) ih
  | atLink _ _ _ hfollow => cases hfollow

end FileTree

end WorkflowRecipes
