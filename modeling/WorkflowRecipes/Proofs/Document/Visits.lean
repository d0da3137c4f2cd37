import Mathlib.Data.List.Flatten
import WorkflowRecipes.Document.Walk
import WorkflowRecipes.Proofs.Document.Addresses

/-!
# Visits to steps

A walk over the steps of a document visits each of them once, in the order of the document, and
whatever it does there, all that is not inside a step stays as it is.

`HasStep` says what a step is, without the walk: a mapping among the items of a sequence without a
tag under a key `steps`, reached through values, items and tags but not through such a sequence.

Results:
1. `mem_visitsAt_iff`, `pairwise_visitsAt`: which steps are visited, and in which order.
2. `overStepsAt_eq_foldlM`: a walk is a visit to each of them, one after the other.
3. `overSteps_visits`: all of this, and what the walk leaves as it is.
-/

namespace WorkflowRecipes

/-- A step where a walk meets it. -/
structure Visit where
  address : Address
  location : Location
  step : Entries

namespace Visit

/-- A visit inside one of the values that stand directly in a value. -/
def under (i : Nat) (visit : Visit) : Visit := { visit with address := i :: visit.address }

/-- The visits inside the values that stand directly in a value, from the one at position `i` on. -/
def inParts (i : Nat) : List (List Visit) → List Visit
  | [] => []
  | found :: rest => found.map (under i) ++ inParts (i + 1) rest

/-- The step that is visited and its location. -/
def located (visit : Visit) : Location × Entries := (visit.location, visit.step)

variable {i : Nat} {parts : List (List Visit)} {visit : Visit}

theorem map_located_inParts (i : Nat) (parts : List (List Visit)) :
    (inParts i parts).map located = parts.flatMap fun found => found.map located := by
  induction parts generalizing i with
  | nil => rfl
  | cons found rest ih =>
    rw [inParts, List.map_append, List.map_map, ih, List.flatMap_cons]
    rfl

theorem mem_inParts : visit ∈ inParts i parts ↔
    ∃ j found, parts[j]? = some found ∧
      ∃ inner : Visit, inner ∈ found ∧ inner.under (i + j) = visit := by
  induction parts generalizing i with
  | nil => exact iff_of_false List.not_mem_nil fun ⟨_, _, h, _⟩ => by cases h
  | cons found rest ih =>
    rw [inParts, List.mem_append, List.mem_map, ih]
    constructor
    · rintro (hfirst | ⟨j, found, hfound, hvisit⟩)
      · exact ⟨0, found, rfl, hfirst⟩
      · exact ⟨j + 1, found, hfound, by rwa [Nat.add_right_comm] at hvisit⟩
    · rintro ⟨_ | j, found, hfound, hvisit⟩
      · obtain rfl := Option.some.inj hfound
        exact .inl hvisit
      · exact .inr ⟨j, found, hfound, by rwa [Nat.add_right_comm]⟩

/-- If the visits inside each value are in order, they all are. -/
theorem pairwise_inParts
    (h : ∀ found ∈ parts, found.Pairwise fun a b => a.address.Precedes b.address) :
    (inParts i parts).Pairwise fun a b => a.address.Precedes b.address := by
  induction parts generalizing i with
  | nil => exact .nil
  | cons found rest ih =>
    obtain ⟨hfound, hrest⟩ := List.forall_mem_cons.mp h
    rw [inParts, List.pairwise_append, List.pairwise_map]
    refine ⟨hfound.imp fun hbefore => .inside i hbefore, ih hrest, ?_⟩
    intro first hfirst last hlast
    obtain ⟨inner, -, rfl⟩ := List.mem_map.mp hfirst
    obtain ⟨j, -, -, inner', -, rfl⟩ := mem_inParts.mp hlast
    exact .here (by omega) inner.address inner'.address

end Visit

namespace Value

/-! ## Steps and visits -/

/-- Whether a key and its value are a list of steps. -/
abbrev IsStepList (key value : Value) : Prop := key.keyText = "steps" ∧ value.isSequence = true

/-- A value at a location has a step. -/
inductive HasStep : Location → Value → Visit → Prop
  | step {location : Location} {entries : Entries} {key : Value} {items : List Value}
      {step : Entries} {i j : Nat} (hentry : entries[i]? = some (key, .sequence items))
      (hkey : key.keyText = "steps") (hitem : items[j]? = some (.mapping step)) :
      HasStep location (.mapping entries) ⟨[i, j], (location.key "steps").index j, step⟩
  | entry {location : Location} {entries : Entries} {key value : Value} {visit : Visit} {i : Nat}
      (hentry : entries[i]? = some (key, value)) (hlist : ¬ IsStepList key value)
      (h : HasStep (location.key key.keyText) value visit) :
      HasStep location (.mapping entries) (visit.under i)
  | item {location : Location} {items : List Value} {item : Value} {visit : Visit} {i : Nat}
      (hitem : items[i]? = some item) (h : HasStep (location.index i) item visit) :
      HasStep location (.sequence items) (visit.under i)
  | tagged {location : Location} {tag : String} {value : Value} {visit : Visit}
      (h : HasStep location value visit) : HasStep location (.tagged tag value) (visit.under 0)

/-- The visit to an item of a list of steps, if it is a mapping. -/
def visitsOfStep (location : Location) : Value → List Visit
  | .mapping step => [⟨[], location, step⟩]
  | _ => []

/-- The visits to the steps in a list of them. -/
def visitsOfList (location : Location) (items : List Value) : List Visit :=
  Visit.inParts 0 (items.zipIdx.map fun item => visitsOfStep (location.index item.2) item.1)

mutual

/-- The visits to the steps below a location. -/
def visitsAt (location : Location) : Value → List Visit
  | .mapping entries => Visit.inParts 0 (visitsOfEntries location entries)
  | .sequence items => Visit.inParts 0 (visitsOfItems location 0 items)
  | .tagged _ value => Visit.inParts 0 [visitsAt location value]
  | _ => []

/-- The visits to the steps in each of the values of a mapping. -/
def visitsOfEntries (location : Location) : List (Value × Value) → List (List Visit)
  | [] => []
  | (key, value) :: rest =>
    let here := location.key key.keyText
    (if IsStepList key value then visitsOfList here value.itemsOf else visitsAt here value) ::
      visitsOfEntries location rest

/-- The visits to the steps in each of the items of a sequence, from position `i` on. -/
def visitsOfItems (location : Location) (i : Nat) : List Value → List (List Visit)
  | [] => []
  | item :: rest => visitsAt (location.index i) item :: visitsOfItems location (i + 1) rest

end

/-- The visits to the steps of a document. -/
def visits (doc : Value) : List Visit := doc.visitsAt Location.root

/-- The visits to the steps in the value of an entry. -/
def visitsOfEntry (location : Location) (entry : Value × Value) : List Visit :=
  if IsStepList entry.1 entry.2 then visitsOfList (location.key entry.1.keyText) entry.2.itemsOf
  else visitsAt (location.key entry.1.keyText) entry.2

theorem visitsOfEntries_eq_map (location : Location) (entries : Entries) :
    visitsOfEntries location entries = entries.map (visitsOfEntry location) := by
  induction entries with
  | nil => rfl
  | cons entry rest ih => rw [visitsOfEntries, ih]; rfl

theorem visitsOfItems_eq_map (location : Location) (i : Nat) (items : List Value) :
    visitsOfItems location i items =
      (items.zipIdx i).map fun item => visitsAt (location.index item.2) item.1 := by
  induction items generalizing i with
  | nil => rfl
  | cons item rest ih => rw [visitsOfItems, ih]; rfl

/-! ## Which steps are visited, and in which order -/

variable {location : Location} {items : List Value} {value : Value} {visit : Visit}

theorem mem_visitsOfList : visit ∈ visitsOfList location items ↔
    ∃ j step, items[j]? = some (.mapping step) ∧ visit = ⟨[j], location.index j, step⟩ := by
  rw [visitsOfList, Visit.mem_inParts]
  simp only [List.getElem?_map, List.getElem?_zipIdx, Option.map_map, Option.map_eq_some_iff,
    Nat.zero_add]
  constructor
  · rintro ⟨j, found, ⟨item, hitem, rfl⟩, inner, hinner, rfl⟩
    cases item with
    | mapping step =>
      obtain rfl := List.mem_singleton.mp hinner
      exact ⟨j, step, hitem, rfl⟩
    | _ => cases hinner
  · rintro ⟨j, step, hitem, rfl⟩
    exact ⟨j, _, ⟨.mapping step, hitem, rfl⟩, _, List.mem_singleton.mpr rfl, rfl⟩

theorem mem_visitsAt_of_hasStep (h : HasStep location value visit) :
    visit ∈ visitsAt location value := by
  induction h with
  | @step location entries key items step i j hentry hkey hitem =>
    rw [visitsAt, visitsOfEntries_eq_map, Visit.mem_inParts]
    refine ⟨i, visitsOfEntry location (key, .sequence items), ?_,
      ⟨[j], (location.key "steps").index j, step⟩, ?_, by rw [Nat.zero_add]; rfl⟩
    · rw [List.getElem?_map, hentry, Option.map_some]
    · rw [visitsOfEntry, if_pos ⟨hkey, rfl⟩, hkey]
      exact mem_visitsOfList.mpr ⟨j, step, hitem, rfl⟩
  | @entry location entries key value visit i hentry hlist _ ih =>
    rw [visitsAt, visitsOfEntries_eq_map, Visit.mem_inParts]
    refine ⟨i, visitsOfEntry location (key, value), ?_, visit, ?_, by rw [Nat.zero_add]⟩
    · rw [List.getElem?_map, hentry, Option.map_some]
    · rw [visitsOfEntry, if_neg hlist]
      exact ih
  | @item location items item visit i hitem _ ih =>
    rw [visitsAt, visitsOfItems_eq_map, Visit.mem_inParts]
    refine ⟨i, visitsAt (location.index i) item, ?_, visit, ih, by rw [Nat.zero_add]⟩
    rw [List.getElem?_map, List.getElem?_zipIdx, hitem, Option.map_some, Option.map_some,
      Nat.zero_add]
  | @tagged location tag value visit _ ih =>
    rw [visitsAt, Visit.mem_inParts]
    exact ⟨0, visitsAt location value, rfl, visit, ih, rfl⟩

theorem hasStep_of_mem_visitsAt (value : Value) : ∀ (location : Location) (visit : Visit),
    visit ∈ visitsAt location value → HasStep location value visit := by
  induction value using children_induction with
  | _ value ih =>
    intro location visit hvisit
    cases value with
    | mapping entries =>
      rw [visitsAt, visitsOfEntries_eq_map, Visit.mem_inParts] at hvisit
      obtain ⟨i, found, hfound, inner, hinner, rfl⟩ := hvisit
      rw [List.getElem?_map, Option.map_eq_some_iff] at hfound
      obtain ⟨⟨key, value⟩, hentry, rfl⟩ := hfound
      rw [Nat.zero_add]
      rw [visitsOfEntry] at hinner
      split at hinner
      · next hlist =>
        obtain ⟨j, step, hitem, rfl⟩ := mem_visitsOfList.mp hinner
        cases value with
        | sequence items =>
          have hkey : key.keyText = "steps" := hlist.1
          rw [hkey]
          exact .step hentry hkey hitem
        | _ => cases hlist.2
      · next hlist =>
        have hchild : value ∈ (Value.mapping entries).children :=
          List.mem_map.mpr ⟨(key, value), List.mem_of_getElem? hentry, rfl⟩
        exact .entry hentry hlist (ih value hchild _ inner hinner)
    | sequence items =>
      rw [visitsAt, visitsOfItems_eq_map, Visit.mem_inParts] at hvisit
      obtain ⟨i, found, hfound, inner, hinner, rfl⟩ := hvisit
      rw [List.getElem?_map, List.getElem?_zipIdx, Option.map_map, Option.map_eq_some_iff] at hfound
      obtain ⟨item, hitem, rfl⟩ := hfound
      rw [Function.comp_apply, Nat.zero_add] at hinner
      rw [Nat.zero_add]
      exact .item hitem (ih item (List.mem_of_getElem? hitem) _ inner hinner)
    | tagged tag value =>
      rw [visitsAt, Visit.mem_inParts] at hvisit
      obtain ⟨_ | i, found, hfound, inner, hinner, rfl⟩ := hvisit
      · obtain rfl := Option.some.inj hfound
        exact .tagged (ih value (List.mem_singleton.mpr rfl) _ inner hinner)
      · cases hfound
    | _ => cases hvisit

/-- The visits of a walk are those to the steps. -/
theorem mem_visitsAt_iff : visit ∈ visitsAt location value ↔ HasStep location value visit :=
  ⟨hasStep_of_mem_visitsAt value location visit, mem_visitsAt_of_hasStep⟩

theorem pairwise_visitsOfList (location : Location) (items : List Value) :
    (visitsOfList location items).Pairwise fun a b => a.address.Precedes b.address := by
  refine Visit.pairwise_inParts fun found hfound => ?_
  obtain ⟨⟨item, i⟩, -, rfl⟩ := List.mem_map.mp hfound
  cases item with
  | mapping step => exact List.pairwise_singleton _ _
  | _ => exact .nil

/-- The steps are visited in the order of the document. -/
theorem pairwise_visitsAt (value : Value) : ∀ location : Location,
    (visitsAt location value).Pairwise fun a b => a.address.Precedes b.address := by
  induction value using children_induction with
  | _ value ih =>
    intro location
    cases value with
    | mapping entries =>
      rw [visitsAt, visitsOfEntries_eq_map]
      refine Visit.pairwise_inParts fun found hfound => ?_
      obtain ⟨entry, hentry, rfl⟩ := List.mem_map.mp hfound
      rw [visitsOfEntry]
      split
      · exact pairwise_visitsOfList _ _
      · exact ih _ (List.mem_map.mpr ⟨entry, hentry, rfl⟩) _
    | sequence items =>
      rw [visitsAt, visitsOfItems_eq_map]
      refine Visit.pairwise_inParts fun found hfound => ?_
      obtain ⟨⟨item, i⟩, hitem, rfl⟩ := List.mem_map.mp hfound
      exact ih item (List.mem_of_getElem? (List.mem_zipIdx_iff_getElem?.mp hitem)) _
    | tagged tag value =>
      rw [visitsAt]
      refine Visit.pairwise_inParts fun found hfound => ?_
      obtain rfl := List.mem_singleton.mp hfound
      exact ih value (List.mem_singleton.mpr rfl) _
    | _ => exact .nil

/-- Where a step is visited, there it stands. -/
theorem node?_of_hasStep (h : HasStep location value visit) :
    value.node? visit.address = some (.mapping visit.step) := by
  induction h with
  | @step location entries key items step i j hentry hkey hitem =>
    simp [node?, children, hentry, hitem]
  | @entry location entries key value visit i hentry hlist _ ih =>
    rw [Visit.under, node?_cons, children, List.getElem?_map, hentry]
    exact ih
  | @item location items item visit i hitem _ ih =>
    rw [Visit.under, node?_cons, children, hitem]
    exact ih
  | tagged _ ih => exact ih

/-! ## What a walk does -/

section Walk

variable {m : Type → Type} [Monad m] [LawfulMonad m] (f : Location → Entries → m Entries)

/-- Visit a step: change it, and put what comes of it in its place. -/
def visitIn (doc : Value) (visit : Visit) : m Value :=
  (fun step => doc.put visit.address (.mapping step)) <$> f visit.location visit.step

/-- Visits inside one of the values in a value change that value. -/
theorem foldlM_under {around : Value → Value} {i : Nat}
    (h : ∀ value address new,
      (around value).put (i :: address) new = around (value.put address new))
    (visits : List Visit) (value : Value) :
    (visits.map (Visit.under i)).foldlM (visitIn f) (around value) =
      around <$> visits.foldlM (visitIn f) value := by
  induction visits generalizing value with
  | nil => exact (map_pure around value).symm
  | cons visit rest ih =>
    rw [List.map_cons, List.foldlM_cons, List.foldlM_cons, map_bind]
    have hfirst : visitIn f (around value) (visit.under i) = around <$> visitIn f value visit := by
      rw [visitIn, visitIn, Functor.map_map]
      exact congrArg (· <$> f visit.location visit.step) (funext fun step => h value _ _)
    rw [hfirst, bind_map_left]
    exact bind_congr fun value => ih value

theorem modify_length {α : Type} (g : α → α) (before : List α) (a : α) (after : List α) :
    (before ++ a :: after).modify before.length g = before ++ g a :: after := by
  induction before with
  | nil => rfl
  | cons b before ih => exact congrArg (b :: ·) ih

/-- Items that are changed one after the other, each by visits inside it, when those before them are
done. -/
theorem overIndexed_eq_foldlM {change : Nat → Value → m Value} (found : Nat → Value → List Visit)
    (rest before : List Value)
    (h : ∀ item ∈ rest, ∀ i, change i item = (found i item).foldlM (visitIn f) item) :
    (fun items => Value.sequence (before ++ items)) <$> overIndexed change before.length rest =
      (Visit.inParts before.length
        ((rest.zipIdx before.length).map fun item => found item.2 item.1)).foldlM (visitIn f)
          (.sequence (before ++ rest)) := by
  induction rest generalizing before with
  | nil => exact map_pure _ _
  | cons item rest ih =>
    obtain ⟨hitem, hrest⟩ := List.forall_mem_cons.mp h
    have hput : ∀ value address new,
        (Value.sequence (before ++ value :: rest)).put (before.length :: address) new =
          .sequence (before ++ value.put address new :: rest) :=
      fun _ _ _ => congrArg Value.sequence (modify_length _ before _ rest)
    rw [overIndexed, hitem, List.zipIdx_cons, List.map_cons, Visit.inParts, List.foldlM_append,
      foldlM_under f hput, map_bind, bind_map_left]
    refine bind_congr fun item => ?_
    have hnext := ih (before ++ [item]) hrest
    rw [List.length_append, List.length_singleton, List.append_assoc] at hnext
    rw [← List.singleton_append, ← hnext, bind_pure_comp, Functor.map_map]
    simp only [List.append_assoc, List.singleton_append]

/-- Entries whose values are changed one after the other, each by visits inside it, when those
before them are done. -/
theorem overValues_eq_foldlM {change : String → Value → m Value}
    {found : Value × Value → List Visit} (rest before : Entries)
    (h : ∀ entry ∈ rest,
      change entry.1.keyText entry.2 = (found entry).foldlM (visitIn f) entry.2) :
    (fun entries => Value.mapping (before ++ entries)) <$> overValues change rest =
      (Visit.inParts before.length (rest.map found)).foldlM (visitIn f)
        (.mapping (before ++ rest)) := by
  induction rest generalizing before with
  | nil => exact map_pure _ _
  | cons entry rest ih =>
    obtain ⟨key, value⟩ := entry
    obtain ⟨hentry, hrest⟩ := List.forall_mem_cons.mp h
    have hput : ∀ value address new,
        (Value.mapping (before ++ (key, value) :: rest)).put (before.length :: address) new =
          .mapping (before ++ (key, value.put address new) :: rest) :=
      fun _ _ _ => congrArg Value.mapping (modify_length _ before _ rest)
    rw [overValues, hentry, List.map_cons, Visit.inParts, List.foldlM_append,
      foldlM_under f hput, map_bind, bind_map_left]
    refine bind_congr fun value => ?_
    have hnext := ih (before ++ [(key, value)]) hrest
    rw [List.length_append, List.length_singleton, List.append_assoc] at hnext
    rw [← List.singleton_append, ← hnext, bind_pure_comp, Functor.map_map]
    simp only [List.append_assoc, List.singleton_append]

theorem overMappings_eq_foldlM (location : Location) (items : List Value) :
    Value.sequence <$> overMappings f location items =
      (visitsOfList location items).foldlM (visitIn f) (.sequence items) := by
  refine overIndexed_eq_foldlM f (fun i item => visitsOfStep (location.index i) item) items []
    fun item _ i => ?_
  cases item with
  | mapping step =>
    have hvisit : ∀ location, visitIn f (.mapping step) ⟨[], location, step⟩ =
        Value.mapping <$> f location step := fun _ => rfl
    rw [visitsOfStep, List.foldlM_cons, hvisit, ← bind_pure_comp]
    exact (bind_pure _).symm
  | _ => rfl

omit [LawfulMonad m] in
/-- A walk changes the value of an entry as a list of steps or walks over it. -/
theorem overStepsOfEntries_eq_overValues (location : Location) (entries : Entries) :
    overStepsOfEntries f location entries = overValues (fun name value =>
        if name = "steps" ∧ value.isSequence then
          Value.sequence <$> overMappings f (location.key name) value.itemsOf
        else overStepsAt f (location.key name) value) entries := by
  induction entries with
  | nil => rfl
  | cons entry rest ih =>
    rw [overStepsOfEntries, overValues, ih]
    dsimp only
    split <;> rfl

omit [LawfulMonad m] in
theorem overStepsOfItems_eq_overIndexed (location : Location) (i : Nat) (items : List Value) :
    overStepsOfItems f location i items =
      overIndexed (fun i item => overStepsAt f (location.index i) item) i items := by
  induction items generalizing i with
  | nil => rfl
  | cons item rest ih => rw [overStepsOfItems, overIndexed, ih]

/-- A walk visits one step after the other. -/
theorem overStepsAt_eq_foldlM (value : Value) : ∀ location : Location,
    overStepsAt f location value = (visitsAt location value).foldlM (visitIn f) value := by
  induction value using children_induction with
  | _ value ih =>
    intro location
    cases value with
    | mapping entries =>
      rw [overStepsAt, bind_pure_comp, overStepsOfEntries_eq_overValues, visitsAt,
        visitsOfEntries_eq_map]
      refine overValues_eq_foldlM f entries [] fun entry hentry => ?_
      rw [visitsOfEntry]
      by_cases hlist : IsStepList entry.1 entry.2
      · rw [if_pos hlist, if_pos hlist, overMappings_eq_foldlM]
        obtain ⟨key, value⟩ := entry
        cases value with
        | sequence items => rfl
        | _ => cases hlist.2
      · rw [if_neg hlist, if_neg hlist]
        exact ih _ (List.mem_map.mpr ⟨entry, hentry, rfl⟩) _
    | sequence items =>
      rw [overStepsAt, bind_pure_comp, overStepsOfItems_eq_overIndexed, visitsAt,
        visitsOfItems_eq_map]
      exact overIndexed_eq_foldlM f (fun i item => visitsAt (location.index i) item) items []
        fun item hitem i => ih item hitem _
    | tagged tag value =>
      have hput : ∀ value address new, (Value.tagged tag value).put (0 :: address) new =
          .tagged tag (value.put address new) := fun _ _ _ => rfl
      rw [overStepsAt, bind_pure_comp, ih value (List.mem_singleton.mpr rfl), visitsAt,
        Visit.inParts, Visit.inParts, List.append_nil, foldlM_under f hput]
    | _ => rfl

/-- The document with other steps in the places of those that are visited. -/
def refill (doc : Value) (visits : List Visit) (steps : List Entries) : Value :=
  (visits.zip steps).foldl (fun doc part => doc.put part.1.address (.mapping part.2)) doc

/-- What is done in one visit does not depend on what came of the visits before it. -/
theorem foldlM_eq_mapM (visits : List Visit) (doc : Value) :
    visits.foldlM (visitIn f) doc =
      doc.refill visits <$> visits.mapM fun visit => f visit.location visit.step := by
  induction visits generalizing doc with
  | nil => exact (map_pure (doc.refill []) ([] : List Entries)).symm
  | cons visit rest ih =>
    rw [List.foldlM_cons, List.mapM_cons, visitIn, bind_map_left, map_bind]
    refine bind_congr fun step => ?_
    rw [ih, bind_pure_comp, Functor.map_map]
    rfl

end Walk

/-! ## What a walk keeps -/

variable {doc : Value} {visits : List Visit} {steps : List Entries} {address : Address}

theorem node?_refill_of_parted (h : ∀ visit ∈ visits, visit.address.Parted address)
    (doc : Value) (steps : List Entries) :
    (doc.refill visits steps).node? address = doc.node? address := by
  induction visits generalizing doc steps with
  | nil => rfl
  | cons visit rest ih =>
    obtain ⟨hvisit, hrest⟩ := List.forall_mem_cons.mp h
    cases steps with
    | nil => rfl
    | cons step steps => exact (ih hrest _ steps).trans (node?_put_of_parted hvisit doc _)

/-- Each new step stands where the old one was visited. -/
theorem node?_refill (hbefore : visits.Pairwise fun a b => a.address.Precedes b.address)
    (hstands : ∀ visit ∈ visits, doc.node? visit.address = some (.mapping visit.step)) :
    ∀ part ∈ visits.zip steps,
      (doc.refill visits steps).node? part.1.address = some (.mapping part.2) := by
  induction visits generalizing doc steps with
  | nil => exact List.forall_mem_nil _
  | cons visit rest ih =>
    obtain ⟨hfirst, hrest⟩ := List.pairwise_cons.mp hbefore
    obtain ⟨hvisit, hothers⟩ := List.forall_mem_cons.mp hstands
    cases steps with
    | nil => exact List.forall_mem_nil _
    | cons step steps =>
      refine List.forall_mem_cons.mpr ⟨?_, ih hrest fun other hother => ?_⟩
      · have hparted := node?_refill_of_parted (fun other hother => .inr (hfirst other hother))
          (doc.put visit.address (.mapping step)) steps
        exact hparted.trans (node?_put_self hvisit _)
      · rw [node?_put_of_parted (.inl (hfirst other hother)), hothers other hother]

/-- Every node that is not inside a step is by itself what it was. -/
theorem shell_node?_refill (h : ∀ visit ∈ visits, ¬ visit.address <+: address) (doc : Value)
    (steps : List Entries) :
    ((doc.refill visits steps).node? address).map shell = (doc.node? address).map shell := by
  induction visits generalizing doc steps with
  | nil => rfl
  | cons visit rest ih =>
    obtain ⟨hvisit, hrest⟩ := List.forall_mem_cons.mp h
    cases steps with
    | nil => rfl
    | cons step steps => exact (ih hrest _ steps).trans (shell_node?_put hvisit doc _)

/-! ## The steps that are listed -/

theorem mappingsAt_eq_map (location : Location) (items : List Value) :
    mappingsAt location items = (visitsOfList location items).map Visit.located := by
  rw [visitsOfList, Visit.map_located_inParts, mappingsAt]
  generalize 0 = i
  induction items generalizing i with
  | nil => rfl
  | cons item rest ih =>
    rw [List.zipIdx_cons, List.filterMap_cons, List.map_cons, List.flatMap_cons, ← ih]
    cases item <;> rfl

theorem stepsOfEntries_eq_flatMap (location : Location) (entries : Entries) :
    stepsOfEntries location entries = entries.flatMap fun entry =>
      if IsStepList entry.1 entry.2 then
        mappingsAt (location.key entry.1.keyText) entry.2.itemsOf
      else stepsAt (location.key entry.1.keyText) entry.2 := by
  induction entries with
  | nil => rfl
  | cons entry rest ih => rw [stepsOfEntries, ih, List.flatMap_cons]

theorem stepsOfItems_eq_flatMap (location : Location) (i : Nat) (items : List Value) :
    stepsOfItems location i items =
      (items.zipIdx i).flatMap fun item => stepsAt (location.index item.2) item.1 := by
  induction items generalizing i with
  | nil => rfl
  | cons item rest ih => rw [stepsOfItems, ih, List.zipIdx_cons, List.flatMap_cons]

/-- The steps that are listed are those that are visited. -/
theorem stepsAt_eq_map (value : Value) : ∀ location : Location,
    stepsAt location value = (visitsAt location value).map Visit.located := by
  induction value using children_induction with
  | _ value ih =>
    intro location
    cases value with
    | mapping entries =>
      rw [stepsAt, stepsOfEntries_eq_flatMap, visitsAt, visitsOfEntries_eq_map,
        Visit.map_located_inParts, List.flatMap_map]
      refine List.flatMap_congr fun entry hentry => ?_
      rw [visitsOfEntry]
      split
      · exact mappingsAt_eq_map _ _
      · exact ih _ (List.mem_map.mpr ⟨entry, hentry, rfl⟩) _
    | sequence items =>
      rw [stepsAt, stepsOfItems_eq_flatMap, visitsAt, visitsOfItems_eq_map,
        Visit.map_located_inParts, List.flatMap_map]
      refine List.flatMap_congr fun item hitem => ?_
      exact ih _ (List.mem_of_getElem? (List.mem_zipIdx_iff_getElem?.mp hitem)) _
    | tagged tag value =>
      rw [stepsAt, visitsAt, Visit.map_located_inParts, List.flatMap_singleton]
      exact ih value (List.mem_singleton.mpr rfl) location
    | _ => rfl

/-! ## Walks over a document -/

/-- A walk over the steps of a document, with whatever effects. It visits each step once, with the
location that leads there, in the order of the document, in which the steps are listed too. What the
visits give stands afterwards in the places of the steps, and every node that is not inside a step
is by itself what it was. -/
theorem overSteps_visits (doc : Value) :
    (∀ visit, visit ∈ doc.visits ↔ HasStep Location.root doc visit) ∧
    doc.visits.Pairwise (fun a b => a.address.Precedes b.address) ∧
    (doc.visits.map Visit.address).Nodup ∧
    doc.steps = doc.visits.map Visit.located ∧
    (∀ {m : Type → Type} [Monad m] [LawfulMonad m] (f : Location → Entries → m Entries),
      overSteps f doc =
        doc.refill doc.visits <$> doc.visits.mapM fun visit => f visit.location visit.step) ∧
    ∀ steps,
      (∀ part ∈ doc.visits.zip steps,
        (doc.refill doc.visits steps).node? part.1.address = some (.mapping part.2)) ∧
      ∀ address, (∀ visit ∈ doc.visits, ¬ visit.address <+: address) →
        ((doc.refill doc.visits steps).node? address).map shell =
          (doc.node? address).map shell := by
  have hbefore := pairwise_visitsAt doc Location.root
  refine ⟨fun visit => mem_visitsAt_iff, hbefore, ?_, stepsAt_eq_map doc Location.root,
    fun f => ?_, fun steps => ⟨?_, fun address haddress => shell_node?_refill haddress doc steps⟩⟩
  · rw [List.nodup_iff_pairwise_ne, List.pairwise_map]
    exact hbefore.imp Address.Precedes.ne
  · rw [overSteps, overStepsAt_eq_foldlM, foldlM_eq_mapM]
    rfl
  · exact node?_refill hbefore fun visit hvisit => node?_of_hasStep (mem_visitsAt_iff.mp hvisit)

/-- Steps of two jobs. The list of the second one has a tag and is no list of steps, but an item of
it has one. -/
def nestedSteps : Value :=
  .mapping [(.string "build", .mapping [(.string "steps",
      .sequence [.string "x", .mapping [(.string "run", .string "make")], .null])]),
    (.string "test", .mapping [(.string "steps", .tagged "!list" (.sequence
      [.mapping [(.string "steps", .sequence [.mapping [(.string "uses", .null)]])]]))])]

/-- The same document without what stands in its two steps. -/
def nestedEmptied : Value :=
  .mapping [(.string "build", .mapping [(.string "steps",
      .sequence [.string "x", .mapping [], .null])]),
    (.string "test", .mapping [(.string "steps", .tagged "!list" (.sequence
      [.mapping [(.string "steps", .sequence [.mapping []])]]))])]

/-- A walk that empties the steps and remembers where they stood. -/
theorem overSteps_visits_nestedSteps :
    Id.run ((overSteps (m := StateM (List String)) (fun location _ => do
        modify (· ++ [location.text])
        return []) nestedSteps).run []) =
      (nestedEmptied, ["$.build.steps[1]", "$.test.steps[0].steps[0]"]) := by
  rw [(overSteps_visits nestedSteps).2.2.2.2.1]
  rfl

end Value

end WorkflowRecipes
