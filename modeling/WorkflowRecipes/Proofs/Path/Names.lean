import WorkflowRecipes.FileTree.Resolve
import WorkflowRecipes.Proofs.Text.Pieces

/-!
# The names of a path

`Path.split` gives the names between the slashes of a path. Joining paths joins their names, and a
path that is written from names has these names again, also as its components. The ending of a name
is what follows its last point.
-/

namespace WorkflowRecipes

namespace Path

/-- The names between the slashes of a path. -/
def split (path : String) : List String :=
  ((Text.pieces '/' path.toList).map String.ofList).filter (· != "")

/-- A text that can be a name: it has a character and no slash. -/
def IsWord (name : String) : Prop := name ≠ "" ∧ '/' ∉ name.toList

instance (name : String) : Decidable (IsWord name) := inferInstanceAs (Decidable (_ ∧ _))

theorem names_eq_split {path : String} (h : endsInSlash path = false) :
    names path = split path := by
  simp [names, split, h]

theorem split_empty : split "" = [] := by decide

theorem split_word {name : String} (h : IsWord name) : split name = [name] := by
  simp [split, Text.pieces_of_not_mem h.2, h.1]

theorem split_append_slash (a b : String) : split (a ++ "/" ++ b) = split a ++ split b := by
  have hlist : (a ++ "/" ++ b).toList = a.toList ++ '/' :: b.toList := by simp
  rw [split, hlist, Text.pieces_append, List.map_append, List.filter_append]
  rfl

theorem endsInSlash_append {a b : String} (h : b ≠ "") : endsInSlash (a ++ b) = endsInSlash b := by
  have hne : b.toList ≠ [] := by simpa using h
  obtain ⟨before, last, hb⟩ := List.eq_nil_or_concat b.toList |>.resolve_left hne
  simp [endsInSlash, hb]

theorem isRooted_iff (path : String) : isRooted path = true ↔ path.toList.head? = some '/' := by
  unfold isRooted startsWith Text.startsWith
  cases hp : path.toList with
  | nil => simp [Text.dropPrefix?]
  | cons c s =>
    by_cases hc : c = '/'
    · simp [Text.dropPrefix?, hc]
    · simp [Text.dropPrefix?, hc, Ne.symm hc]

/-! ## Joined paths -/

section Join

variable {directory name : String}

theorem join_cases (hname : isRooted name = false) :
    join directory name = directory ++ name ∧ (directory = "" ∨ endsInSlash directory = true) ∨
      join directory name = directory ++ "/" ++ name ∧ directory ≠ "" := by
  unfold join
  rw [show startsWith name "/" = false from hname]
  by_cases h : directory = "" ∨ endsInSlash directory = true
  · have htest : (directory == "" || directory.toList.getLast? == some '/') = true := by
      simpa [endsInSlash] using h
    exact .inl ⟨by simp [htest], h⟩
  · have htest : (directory == "" || directory.toList.getLast? == some '/') = false := by
      simpa [endsInSlash] using h
    exact .inr ⟨by simp [htest], fun hd => h (.inl hd)⟩

theorem split_join (hname : isRooted name = false) :
    split (join directory name) = split directory ++ split name := by
  rcases @join_cases directory name hname with ⟨h, hd⟩ | ⟨h, -⟩
  · rw [h]
    rcases hd with rfl | hd
    · simp [split_empty]
    · -- The slash at the end of the directory separates the two.
      obtain ⟨before, hb⟩ : ∃ before, directory = before ++ "/" := by
        have hlast : directory.toList.getLast? = some '/' := by simpa [endsInSlash] using hd
        obtain ⟨before, hb⟩ := List.getLast?_eq_some_iff.mp hlast
        exact ⟨String.ofList before, by rw [← String.toList_inj, hb]; simp⟩
      have hempty : split (before ++ "/") = split before := by
        simpa [split_empty] using split_append_slash before ""
      rw [hb, split_append_slash, hempty]
  · rw [h, split_append_slash]

theorem endsInSlash_join (hname : isRooted name = false) (hne : name ≠ "") :
    endsInSlash (join directory name) = endsInSlash name := by
  rcases @join_cases directory name hname with ⟨h, -⟩ | ⟨h, -⟩ <;>
    rw [h, endsInSlash_append hne]

theorem isRooted_join (hname : isRooted name = false) :
    isRooted (join directory name) = isRooted directory := by
  have hrelative : ¬ name.toList.head? = some '/' := by
    rw [← isRooted_iff, hname]
    decide
  rw [Bool.eq_iff_iff, isRooted_iff, isRooted_iff]
  by_cases hd : directory = ""
  · subst hd
    rcases @join_cases "" name hname with ⟨h, -⟩ | ⟨-, h⟩
    · simp [h, hrelative]
    · exact absurd rfl h
  · have hne : directory.toList ≠ [] := by simpa using hd
    obtain ⟨c, rest, hc⟩ := List.exists_cons_of_ne_nil hne
    rcases @join_cases directory name hname with ⟨h, -⟩ | ⟨h, -⟩ <;> simp [h, hc]

theorem join_ne_empty (hne : name ≠ "") : join directory name ≠ "" := by
  unfold join
  split
  · exact hne
  · split
    · simp [hne]
    · simp

end Join

/-! ## Paths that are written from names -/

theorem split_intercalate {words : List String} (h : ∀ word ∈ words, IsWord word) :
    split ("/".intercalate words) = words := by
  induction words with
  | nil => exact split_empty
  | cons word rest ih =>
    have hword := h word List.mem_cons_self
    by_cases hrest : rest = []
    · subst hrest
      simpa using split_word hword
    · rw [String.intercalate_cons_of_ne_nil hrest, split_append_slash, split_word hword,
        ih fun other hmem => h other (List.mem_cons_of_mem _ hmem)]
      rfl

theorem intercalate_words {words : List String} (h : ∀ word ∈ words, IsWord word)
    (hne : words ≠ []) :
    isRooted ("/".intercalate words) = false ∧ "/".intercalate words ≠ "" ∧
      endsInSlash ("/".intercalate words) = false := by
  induction words with
  | nil => exact absurd rfl hne
  | cons word rest ih =>
    obtain ⟨hword, hslash⟩ := h word List.mem_cons_self
    obtain ⟨c, chars, hc⟩ := List.exists_cons_of_ne_nil (show word.toList ≠ [] by simpa using hword)
    have hfirst : c ≠ '/' := fun he => hslash (by simp [hc, he])
    by_cases hrest : rest = []
    · subst hrest
      rw [String.intercalate_singleton]
      refine ⟨?_, hword, ?_⟩
      · rw [Bool.eq_false_iff, ne_eq, isRooted_iff, hc]
        simpa using hfirst
      · have hlast : word.toList.getLast? ≠ some '/' :=
          fun he => hslash (List.mem_of_getLast? he)
        simpa [endsInSlash] using hlast
    · obtain ⟨-, hne', hends⟩ := ih (fun other hmem => h other (List.mem_cons_of_mem _ hmem)) hrest
      rw [String.intercalate_cons_of_ne_nil hrest]
      refine ⟨?_, by simp [hword], ?_⟩
      · rw [Bool.eq_false_iff, ne_eq, isRooted_iff]
        simpa [hc] using hfirst
      · rw [endsInSlash_append hne', hends]

/-! ## Components that are names -/

/-- The components of a path that starts neither at the top nor with a point are the names between
its slashes, points apart. -/
theorem components_eq_split {path first : String} (hrooted : isRooted path = false)
    (hhead : ((Text.pieces '/' path.toList).map String.ofList).head? = some first)
    (hfirst : first ≠ ".") : components path = (split path).filter (· != ".") := by
  have hstart : startsWith path "/" = false := hrooted
  unfold components split
  dsimp only
  rw [hstart, hhead, List.filter_filter]
  simp [hfirst, Bool.and_comm]

/-- Names that are no point are the components of the path that is written from them. -/
theorem components_intercalate {first : String} {rest : List String}
    (h : ∀ word ∈ first :: rest, IsWord word ∧ word ≠ ".") :
    components ("/".intercalate (first :: rest)) = first :: rest := by
  have hwords : ∀ word ∈ first :: rest, IsWord word := fun word hmem => (h word hmem).1
  have hpieces := Text.pieces_of_not_mem (hwords first List.mem_cons_self).2
  have hhead : ((Text.pieces '/' ("/".intercalate (first :: rest)).toList).map
      String.ofList).head? = some first := by
    cases rest with
    | nil => simp [hpieces]
    | cons second rest =>
      have hlist : ("/".intercalate (first :: second :: rest)).toList =
          first.toList ++ '/' :: ("/".intercalate (second :: rest)).toList := by
        simp [String.intercalate_cons_cons]
      rw [hlist, Text.pieces_append, hpieces]
      simp
  rw [components_eq_split (intercalate_words hwords (List.cons_ne_nil _ _)).1 hhead
    (h first List.mem_cons_self).2, split_intercalate hwords, List.filter_eq_self]
  exact fun word hmem => bne_iff_ne.mpr (h word hmem).2

/-! ## The ending of a name -/

/-- The ending of a name follows its last point, and something stands before that point. -/
theorem extension?_eq_some_iff {name ending : String} :
    extension? name = some ending ↔
      '.' ∉ ending.toList ∧ ∃ stem, stem ≠ "" ∧ name = stem ++ "." ++ ending := by
  unfold extension?
  dsimp only
  constructor
  · intro h
    have hsplit := List.takeWhile_append_dropWhile (p := (· != '.')) (l := name.toList.reverse)
    have hpoint := List.head?_dropWhile_not (· != '.') name.toList.reverse
    have hlast : '.' ∉ name.toList.reverse.takeWhile (· != '.') :=
      fun hmem => absurd (List.mem_takeWhile_imp hmem) (by decide)
    generalize name.toList.reverse.takeWhile (· != '.') = after at h hsplit hlast
    generalize name.toList.reverse.dropWhile (· != '.') = before at hsplit hpoint
    rw [← hsplit] at h
    cases before with
    | nil => simp at h
    | cons c before =>
      obtain rfl : c = '.' := by simpa using hpoint
      split at h
      · next hcond =>
        obtain rfl := Option.some.inj h
        rw [← List.reverse_inj, List.reverse_reverse, List.reverse_append, List.reverse_cons]
          at hsplit
        refine ⟨by simpa using hlast, String.ofList before.reverse, by simpa using hcond, ?_⟩
        rw [← String.toList_inj, ← hsplit]
        simp
      · cases h
  · rintro ⟨hpoint, stem, hstem, rfl⟩
    have hchars : (stem ++ "." ++ ending).toList.reverse =
        ending.toList.reverse ++ '.' :: stem.toList.reverse := by simp
    have hkept : ∀ c ∈ ending.toList.reverse, (c != '.') = true := by
      intro c hc
      rw [bne_iff_ne]
      rintro rfl
      exact hpoint (List.mem_reverse.mp hc)
    rw [hchars, List.takeWhile_append_of_pos hkept]
    simp [hstem]

end Path

end WorkflowRecipes
