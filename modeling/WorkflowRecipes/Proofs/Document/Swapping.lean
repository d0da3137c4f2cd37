import Mathlib.Data.List.Basic
import WorkflowRecipes.Audit.Event
import WorkflowRecipes.Proofs.Document.Entries

/-!
# One value in the place of another

Two documents that differ in the value of one entry only: `Swap` has one constructor for each way
down to that entry. What stands elsewhere is found elsewhere in both, and an audit of texts reports
the same about it.

Results:
1. `exists_swap_of_mem`, `exists_swap_of_get?`: the value of every entry can be swapped.
2. `get?_of_swap`, `names_of_swap`: what is found under the keys of the document, and its events.
3. `exists_underTextKey_of_swap`, `underTextKey_perm_of_swap`: the findings on texts differ in those
   on the value only, and only in order if the value is the same but for the order of its entries.
-/

namespace WorkflowRecipes

namespace Entries

variable {entries : Entries} {name : String} {value : Value}

theorem get?_append (before after : Entries) (name : String) :
    (before ++ after : Entries).get? name = (before.get? name).or (after.get? name) := by
  rw [get?, List.find?_append, Option.map_or]
  rfl

/-- What is found under a key stands in the first entry with the key. -/
theorem exists_around_of_get? (h : entries.get? name = some value) :
    ∃ before key after, entries = before ++ (key, value) :: after ∧ key.isKey name = true ∧
      get? before name = none := by
  obtain ⟨⟨key, found⟩, hfind, rfl⟩ := Option.map_eq_some_iff.mp h
  obtain ⟨hkey, before, after, rfl, hbefore⟩ := List.find?_eq_some_iff_append.mp hfind
  refine ⟨before, key, after, rfl, hkey, ?_⟩
  rw [get?, Option.map_eq_none_iff, List.find?_eq_none]
  exact fun e he => by simpa using hbefore e he

/-- Whatever the value of one entry is, that value is found under a key, or what is found does not
depend on it. -/
theorem get?_around (before after : Entries) (key : Value) (name : String) :
    (key = .string name ∧
      ∀ value, get? (before ++ (key, value) :: after : Entries) name = some value) ∨
    ∃ found, ∀ value, get? (before ++ (key, value) :: after : Entries) name = found := by
  cases hbefore : get? before name with
  | some found =>
    refine .inr ⟨some found, fun value => ?_⟩
    rw [get?_append, hbefore, Option.some_or]
  | none =>
    cases hkey : key.isKey name with
    | true =>
      refine .inl ⟨Value.isKey_iff.mp hkey, fun value => ?_⟩
      rw [get?_append, hbefore, Option.none_or, get?_cons_of_isKey hkey]
    | false =>
      refine .inr ⟨get? after name, fun value => ?_⟩
      rw [get?_append, hbefore, Option.none_or, get?_cons_of_not_isKey hkey]

end Entries

namespace Value

/-- Two values that are the same but for the value of one entry, which is `old` in the first and
`new` in the second: the text of the key is `name`, and the hops lead to the entry. -/
inductive Swap (name : String) (old new : Value) : List Hop → Value → Value → Prop
  | here {before after : Entries} {key : Value} (hkey : key.keyText = name) :
      Swap name old new [.key name] (.mapping (before ++ (key, old) :: after))
        (.mapping (before ++ (key, new) :: after))
  | entry {before after : Entries} {key value value' : Value} {hops : List Hop}
      (h : Swap name old new hops value value') :
      Swap name old new (.key key.keyText :: hops) (.mapping (before ++ (key, value) :: after))
        (.mapping (before ++ (key, value') :: after))
  | item {before after : List Value} {value value' : Value} {hops : List Hop}
      (h : Swap name old new hops value value') :
      Swap name old new (.index before.length :: hops) (.sequence (before ++ value :: after))
        (.sequence (before ++ value' :: after))
  | tagged {tag : String} {value value' : Value} {hops : List Hop}
      (h : Swap name old new hops value value') :
      Swap name old new hops (.tagged tag value) (.tagged tag value')

variable {name : String} {old new doc doc' value child : Value} {hops : List Hop}

/-- A value that holds an entry is no text. -/
theorem Swap.text?_eq_none (h : Swap name old new hops doc doc') :
    doc.text? = none ∧ doc'.text? = none := by
  induction h with
  | here _ | entry _ _ | item _ _ => exact ⟨rfl, rfl⟩
  | tagged _ ih => exact ih

theorem Swap.hops_ne_nil (h : Swap name old new hops doc doc') : hops ≠ [] := by
  induction h with
  | here _ | entry _ _ | item _ _ => exact List.cons_ne_nil _ _
  | tagged _ ih => exact ih

/-! ## Swapping any value -/

/-- The value under a key can be swapped, and so can what lies in it. -/
theorem exists_swap_of_get? : ∀ value : Value, value.get? name = some child → ∀ child' : Value,
    ∃ value', value'.get? name = some child' ∧ Swap name child child' [.key name] value value' ∧
      ∀ below old new hops, Swap below old new hops child child' →
        Swap below old new (.key name :: hops) value value'
  | .mapping entries, h, child' => by
    obtain ⟨before, key, after, rfl, hkey, hbefore⟩ := Entries.exists_around_of_get? h
    obtain rfl := isKey_iff.mp hkey
    refine ⟨.mapping (before ++ (.string name, child') :: after), ?_, .here rfl,
      fun _ _ _ _ hswap => @Swap.entry _ _ _ before after (.string name) _ _ _ hswap⟩
    exact (Entries.get?_append before _ name).trans (by
      rw [hbefore, Option.none_or, Entries.get?_cons_of_isKey hkey])
  | .tagged tag value, h, child' => by
    obtain ⟨value', hget, hhere, hbelow⟩ := exists_swap_of_get? value h child'
    exact ⟨.tagged tag value', hget, hhere.tagged, fun _ _ _ _ hswap => (hbelow _ _ _ _ hswap).tagged⟩
  | .sequence _, h, _ | .string _, h, _ | .number _, h, _ | .bool _, h, _ | .null, h, _ => by cases h

mutual

theorem exists_swap_of_mem_entriesAt {location place : Location} : ∀ value : Value,
    (place, name, old) ∈ value.entriesAt location →
      ∃ hops, place.hops = location.hops ++ hops ∧
        ∀ new, ∃ value', Swap name old new hops value value'
  | .mapping entries, h => exists_swap_of_mem_entriesOfEntries [] entries h
  | .sequence items, h => exists_swap_of_mem_entriesOfItems [] items h
  | .tagged tag value, h => by
    obtain ⟨hops, hplace, hswap⟩ := exists_swap_of_mem_entriesAt value h
    refine ⟨hops, hplace, fun new => ?_⟩
    obtain ⟨value', hvalue⟩ := hswap new
    exact ⟨.tagged tag value', hvalue.tagged⟩
  | .string _, h | .number _, h | .bool _, h | .null, h => by cases h

theorem exists_swap_of_mem_entriesOfEntries {location place : Location} (before : Entries) :
    ∀ entries : List (Value × Value), (place, name, old) ∈ entriesOfEntries location entries →
      ∃ hops, place.hops = location.hops ++ hops ∧
        ∀ new, ∃ value', Swap name old new hops (.mapping (before ++ entries)) value'
  | [], h => by cases h
  | (key, value) :: rest, h => by
    rw [entriesOfEntries, List.mem_cons, List.mem_append] at h
    obtain heq | h | h := h
    · cases heq
      exact ⟨[.key key.keyText], rfl, fun new => ⟨_, .here rfl⟩⟩
    · obtain ⟨hops, hplace, hswap⟩ := exists_swap_of_mem_entriesAt value h
      refine ⟨.key key.keyText :: hops, by simp [hplace, Location.key], fun new => ?_⟩
      obtain ⟨value', hvalue⟩ := hswap new
      exact ⟨_, hvalue.entry⟩
    · obtain ⟨hops, hplace, hswap⟩ :=
        exists_swap_of_mem_entriesOfEntries (before ++ [(key, value)]) rest h
      refine ⟨hops, hplace, fun new => ?_⟩
      rw [← List.append_cons] at hswap
      exact hswap new

theorem exists_swap_of_mem_entriesOfItems {location place : Location} (before : List Value) :
    ∀ items : List Value,
      (place, name, old) ∈ entriesOfItems location before.length items →
      ∃ hops, place.hops = location.hops ++ hops ∧
        ∀ new, ∃ value', Swap name old new hops (.sequence (before ++ items)) value'
  | [], h => by cases h
  | item :: rest, h => by
    rw [entriesOfItems, List.mem_append] at h
    obtain h | h := h
    · obtain ⟨hops, hplace, hswap⟩ := exists_swap_of_mem_entriesAt item h
      refine ⟨.index before.length :: hops, by simp [hplace, Location.index], fun new => ?_⟩
      obtain ⟨value', hvalue⟩ := hswap new
      exact ⟨_, hvalue.item⟩
    · have hlength : (before ++ [item]).length = before.length + 1 := List.length_append
      obtain ⟨hops, hplace, hswap⟩ :=
        exists_swap_of_mem_entriesOfItems (before ++ [item]) rest (hlength ▸ h)
      refine ⟨hops, hplace, fun new => ?_⟩
      rw [← List.append_cons] at hswap
      exact hswap new

end

/-- The value of every entry of a document can be swapped for any other. -/
theorem exists_swap_of_mem {place : Location} (h : (place, name, old) ∈ doc.entriesWithin)
    (new : Value) : ∃ doc', Swap name old new place.hops doc doc' := by
  obtain ⟨hops, hplace, hswap⟩ := exists_swap_of_mem_entriesAt doc h
  exact hplace ▸ hswap new

/-! ## Keys of the document -/

/-- The value under a key of the document is the same in both, or it is the place of the swap, or
the place lies in it. -/
theorem get?_of_swap (h : Swap name old new hops doc doc') (key : String) :
    doc'.get? key = doc.get? key ∨ ∃ rest, hops = .key key :: rest ∧
      ((name = key ∧ doc.get? key = some old ∧ doc'.get? key = some new) ∨
        ∃ value value', doc.get? key = some value ∧ doc'.get? key = some value' ∧
          Swap name old new rest value value') := by
  induction h with
  | @here before after k hkey =>
    obtain ⟨rfl, hfound⟩ | ⟨found, hfound⟩ := Entries.get?_around before after k key
    · exact .inr ⟨[], by rw [← hkey]; rfl, .inl ⟨hkey.symm, hfound old, hfound new⟩⟩
    · exact .inl ((hfound new).trans (hfound old).symm)
  | @entry before after k value value' hops h _ =>
    obtain ⟨rfl, hfound⟩ | ⟨found, hfound⟩ := Entries.get?_around before after k key
    · exact .inr ⟨hops, rfl, .inr ⟨value, value', hfound value, hfound value', h⟩⟩
    · exact .inl ((hfound value').trans (hfound value).symm)
  | item _ _ => exact .inl rfl
  | tagged _ ih => exact ih

theorem get?_of_swap_of_ne {key first : String} (h : Swap name old new (.key first :: hops) doc doc')
    (hne : first ≠ key) : doc'.get? key = doc.get? key := by
  obtain hsame | ⟨rest, hhops, -⟩ := get?_of_swap h key
  · exact hsame
  · cases hhops
    exact (hne rfl).elim

/-- The events of a workflow are not changed by a swap below them. -/
theorem names_of_swap (h : Swap name old new hops doc doc') (hname : name ≠ "on") :
    Event.names doc' = Event.names doc := by
  unfold Event.names
  obtain hsame | ⟨rest, -, ⟨heq, -⟩ | ⟨value, value', hold, hnew, hswap⟩⟩ := get?_of_swap h "on"
  · rw [hsame]
  · exact (hname heq).elim
  · rw [hold, hnew]
    cases hswap with
    | here _ | entry _ => simp [List.filterMap_append, List.filterMap_cons]
    | item hitem =>
      obtain ⟨hvalue, hvalue'⟩ := hitem.text?_eq_none
      simp [List.filterMap_append, hvalue, hvalue']
    | tagged _ => rfl

/-! ## Entries -/

theorem entriesOfEntries_append (location : Location) (before after : Entries) :
    entriesOfEntries location (before ++ after) =
      entriesOfEntries location before ++ entriesOfEntries location after := by
  induction before with
  | nil => rfl
  | cons entry before ih =>
    obtain ⟨key, value⟩ := entry
    simp only [List.cons_append, entriesOfEntries, ih, List.append_assoc]

theorem entriesOfItems_append (location : Location) (i : Nat) (before after : List Value) :
    entriesOfItems location i (before ++ after) =
      entriesOfItems location i before ++ entriesOfItems location (i + before.length) after := by
  induction before generalizing i with
  | nil => rfl
  | cons item before ih =>
    simp only [List.cons_append, entriesOfItems, ih, List.append_assoc, List.length_cons,
      Nat.add_assoc, Nat.add_comm 1]

/-- An entry with the text of its value, if the value is one. -/
def textEntry? (entry : Location × String × Value) : Option (Location × String × String) :=
  entry.2.2.text?.map fun text => (entry.1, entry.2.1, text)

/-- The entries at and below the place of a value, of those that have texts. -/
def textsFrom (location : Location) (name : String) (value : Value) :
    List (Location × String × String) :=
  ((location, name, value) :: value.entriesAt location).filterMap textEntry?

theorem filterMap_entriesOfEntries (location : Location) (before after : Entries)
    (key value : Value) :
    (entriesOfEntries location (before ++ (key, value) :: after)).filterMap textEntry? =
      (entriesOfEntries location before).filterMap textEntry? ++
        textsFrom (location.key key.keyText) key.keyText value ++
        (entriesOfEntries location after).filterMap textEntry? := by
  rw [entriesOfEntries_append, entriesOfEntries, ← List.cons_append, ← List.append_assoc,
    List.filterMap_append, List.filterMap_append]
  rfl

theorem filterMap_entriesOfItems (location : Location) (before after : List Value) (value : Value) :
    (entriesOfItems location 0 (before ++ value :: after)).filterMap textEntry? =
      (entriesOfItems location 0 before).filterMap textEntry? ++
        (value.entriesAt (location.index before.length)).filterMap textEntry? ++
        (entriesOfItems location (before.length + 1) after).filterMap textEntry? := by
  rw [entriesOfItems_append, entriesOfItems, Nat.zero_add, ← List.append_assoc,
    List.filterMap_append, List.filterMap_append]

theorem textsFrom_of_text?_eq_none {location : Location} (h : value.text? = none) :
    textsFrom location name value = (value.entriesAt location).filterMap textEntry? := by
  rw [textsFrom, List.filterMap_cons, textEntry?, h]
  rfl

theorem entriesAt_of_text? {text : String} (location : Location) : ∀ value : Value,
    value.text? = some text → value.entriesAt location = []
  | .string _, _ => rfl
  | .tagged _ value, h => entriesAt_of_text? location value h
  | .mapping _, h | .sequence _, h | .number _, h | .bool _, h | .null, h => by cases h

theorem textsFrom_of_text? {text : String} {location : Location} (h : value.text? = some text) :
    textsFrom location name value = [(location, name, text)] := by
  rw [textsFrom, entriesAt_of_text? location value h, List.filterMap_cons, textEntry?, h]
  rfl

/-- The entries with texts are those at and below the place of the swap and those around it, and the
latter are the same in both. -/
theorem exists_texts_of_swap (h : Swap name old new hops doc doc') (location : Location) :
    ∃ earlier later,
      (doc.entriesAt location).filterMap textEntry? =
        earlier ++ textsFrom ⟨location.hops ++ hops⟩ name old ++ later ∧
      (doc'.entriesAt location).filterMap textEntry? =
        earlier ++ textsFrom ⟨location.hops ++ hops⟩ name new ++ later := by
  induction h generalizing location with
  | @here before after key hkey =>
    subst hkey
    exact ⟨_, _, filterMap_entriesOfEntries location before after key old,
      filterMap_entriesOfEntries location before after key new⟩
  | @entry before after key value value' hops h ih =>
    obtain ⟨hvalue, hvalue'⟩ := h.text?_eq_none
    obtain ⟨earlier, later, hold, hnew⟩ := ih (location.key key.keyText)
    have hhops : (location.key key.keyText).hops ++ hops =
        location.hops ++ .key key.keyText :: hops := List.append_assoc _ _ _
    refine ⟨(entriesOfEntries location before).filterMap textEntry? ++ earlier,
      later ++ (entriesOfEntries location after).filterMap textEntry?, ?_, ?_⟩
    · rw [entriesAt, filterMap_entriesOfEntries, textsFrom_of_text?_eq_none hvalue, hold, hhops]
      simp only [List.append_assoc]
    · rw [entriesAt, filterMap_entriesOfEntries, textsFrom_of_text?_eq_none hvalue', hnew, hhops]
      simp only [List.append_assoc]
  | @item before after value value' hops h ih =>
    obtain ⟨earlier, later, hold, hnew⟩ := ih (location.index before.length)
    have hhops : (location.index before.length).hops ++ hops =
        location.hops ++ .index before.length :: hops := List.append_assoc _ _ _
    refine ⟨(entriesOfItems location 0 before).filterMap textEntry? ++ earlier,
      later ++ (entriesOfItems location (before.length + 1) after).filterMap textEntry?, ?_, ?_⟩
    · rw [entriesAt, filterMap_entriesOfItems, hold, hhops]
      simp only [List.append_assoc]
    · rw [entriesAt, filterMap_entriesOfItems, hnew, hhops]
      simp only [List.append_assoc]
  | tagged _ ih => exact ih location

/-! ## Entries in another order -/

/-- The same entries in any order, behind the same tags. -/
inductive Reordered : Value → Value → Prop
  | mapping {entries entries' : Entries} (h : entries.Perm entries') :
      Reordered (.mapping entries) (.mapping entries')
  | tagged {tag : String} {value value' : Value} (h : Reordered value value') :
      Reordered (.tagged tag value) (.tagged tag value')

variable {value' : Value} {entries entries' : Entries}

theorem Reordered.text?_eq_none (h : Reordered value value') :
    value.text? = none ∧ value'.text? = none := by
  induction h with
  | mapping _ => exact ⟨rfl, rfl⟩
  | tagged _ ih => exact ih

theorem Reordered.entriesOf_perm (h : Reordered value value') :
    value.entriesOf.Perm value'.entriesOf := by
  induction h with
  | mapping h => exact h
  | tagged _ ih => exact ih

/-- The entries of a mapping can be put in any order. -/
theorem exists_reordered (hperm : entries.Perm entries') : ∀ value : Value,
    value.entries? = some entries → ∃ value', Reordered value value' ∧ value'.entriesOf = entries'
  | .mapping _, h => by
    cases h
    exact ⟨.mapping entries', .mapping hperm, rfl⟩
  | .tagged tag value, h => by
    obtain ⟨value', hvalue, hentries⟩ := exists_reordered hperm value h
    exact ⟨.tagged tag value', hvalue.tagged, hentries⟩
  | .sequence _, h | .string _, h | .number _, h | .bool _, h | .null, h => by cases h

theorem entriesOfEntries_eq (location : Location) (entries : Entries) :
    entriesOfEntries location entries = entries.flatMap fun entry =>
      (location.key entry.1.keyText, entry.1.keyText, entry.2) ::
        entry.2.entriesAt (location.key entry.1.keyText) := by
  induction entries with
  | nil => rfl
  | cons entry entries ih =>
    obtain ⟨key, value⟩ := entry
    rw [entriesOfEntries, ih, List.flatMap_cons, List.cons_append]

theorem Reordered.entriesAt_perm (h : Reordered value value') (location : Location) :
    (value.entriesAt location).Perm (value'.entriesAt location) := by
  induction h with
  | mapping h =>
    rw [entriesAt, entriesAt, entriesOfEntries_eq, entriesOfEntries_eq]
    exact h.flatMap_right _
  | tagged _ ih => exact ih

end Value

/-! ## Audits -/

namespace Finding

/-- The finding on an entry whose text has a problem. -/
def onText? (name : String) (problem? : String → Option String)
    (entry : Location × String × String) : Option Finding :=
  if entry.2.1 = name then (problem? entry.2.2).map fun message => ⟨entry.1, message⟩ else none

theorem underTextKey_eq (doc : Value) (name : String) (problem? : String → Option String) :
    underTextKey doc name problem? =
      (doc.entriesWithin.filterMap Value.textEntry?).filterMap (onText? name problem?) := by
  rw [underTextKey, underKey, List.filterMap_filterMap]
  refine List.filterMap_congr fun entry _ => ?_
  obtain ⟨location, key, value⟩ := entry
  dsimp only [Value.textEntry?, onText?]
  cases value.text? with
  | none => split <;> rfl
  | some text => rfl

/-- The findings on texts are those at and below the place of a swap and those around it, and the
latter are the same in both documents. -/
theorem exists_underTextKey_of_swap {doc doc' old new : Value} {name : String} {hops : List Hop}
    (h : Value.Swap name old new hops doc doc') (key : String)
    (problem? : String → Option String) :
    ∃ earlier later,
      underTextKey doc key problem? =
        earlier ++ (Value.textsFrom ⟨hops⟩ name old).filterMap (onText? key problem?) ++ later ∧
      underTextKey doc' key problem? =
        earlier ++ (Value.textsFrom ⟨hops⟩ name new).filterMap (onText? key problem?) ++ later := by
  obtain ⟨earlier, later, hold, hnew⟩ := Value.exists_texts_of_swap h Location.root
  refine ⟨earlier.filterMap (onText? key problem?), later.filterMap (onText? key problem?), ?_, ?_⟩
  · rw [underTextKey_eq, Value.entriesWithin, hold, List.filterMap_append, List.filterMap_append]
    rfl
  · rw [underTextKey_eq, Value.entriesWithin, hnew, List.filterMap_append, List.filterMap_append]
    rfl

/-- Entries in another order have the same findings, in another order. -/
theorem underTextKey_perm_of_swap {doc doc' old new : Value} {name : String} {hops : List Hop}
    (h : Value.Swap name old new hops doc doc') (hreordered : Value.Reordered old new) (key : String)
    (problem? : String → Option String) :
    (underTextKey doc' key problem?).Perm (underTextKey doc key problem?) := by
  obtain ⟨hold, hnew⟩ := hreordered.text?_eq_none
  obtain ⟨earlier, later, hdoc, hdoc'⟩ := exists_underTextKey_of_swap h key problem?
  rw [Value.textsFrom_of_text?_eq_none hold] at hdoc
  rw [Value.textsFrom_of_text?_eq_none hnew] at hdoc'
  rw [hdoc, hdoc']
  have hentries := hreordered.entriesAt_perm ⟨hops⟩
  exact (((hentries.symm.filterMap _).filterMap _).append_left earlier).append_right later

end Finding

end WorkflowRecipes
