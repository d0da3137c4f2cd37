import WorkflowRecipes.Proofs.Amendment.SettledSteps
import WorkflowRecipes.Proofs.Document.Equality
import WorkflowRecipes.Proofs.Document.Framing
import WorkflowRecipes.Proofs.Text.Versions

/-!
# Versions that are raised

The version of a tool is raised to a least one in all steps that set the tool up. To raise it twice
is to raise it to the greater of both, the versions of different tools are raised in any order, and
nothing but the versions changes.

Results:
1. `raise_raise`, `raisedTo_raise`: what becomes of the scalar that holds a version.
2. `raiseIn_raiseIn`, `raiseIn_comm`, `raisedStep_raiseIn`: what becomes of a step.
3. `result_raise_raise`, `result_raise_comm`: raising a document again, in any order.
4. `raise_laws`: all of it for a document.
-/

namespace WorkflowRecipes

/-! ## Scalars -/

namespace Value

/-- Whether a scalar is a number. -/
def isNumber : Value → Bool
  | .number _ => true
  | _ => false

/-- A scalar holds a version with a major number. -/
def HasVersion (slot : Value) (n : Nat) : Prop :=
  ∃ text, slot.scalarText? = some text ∧ Version.HasMajor text.toList n

variable {m n : Nat}

theorem HasVersion.unique {slot : Value} (hm : slot.HasVersion m) (hn : slot.HasVersion n) :
    m = n := by
  obtain ⟨text, htext, hm⟩ := hm
  obtain ⟨text', htext', hn⟩ := hn
  obtain rfl := Option.some.inj (htext.symm.trans htext')
  exact hm.unique hn

theorem smallNatural?_toString (h : n < UInt64.size) : smallNatural? (toString n) = some n := by
  have hnatural := Text.natural?_toString n
  unfold smallNatural?
  split
  · next digits hplus =>
    rw [hplus, Text.natural?_eq_some_iff] at hnatural
    exact absurd (hnatural.1.2 '+' List.mem_cons_self) (by decide)
  · rw [Text.naturalBelow?, hnatural, Option.filter_some, if_pos (decide_eq_true h)]

/-- A number in the place of a number is a number, and in the place of a text its text. -/
theorem replacement_toString (h : n < UInt64.size) (slot : Value) :
    slot.replacement (toString n) =
      if slot.isNumber then .number (.integer n) else .string (toString n) := by
  unfold replacement
  rw [smallNatural?_toString h]
  cases slot <;> rfl

theorem isNumber_replacement (h : n < UInt64.size) (slot : Value) :
    (slot.replacement (toString n)).isNumber = slot.isNumber := by
  rw [replacement_toString h]
  cases slot.isNumber <;> rfl

theorem scalarText?_replacement (h : n < UInt64.size) (slot : Value) :
    (slot.replacement (toString n)).scalarText? = some (toString n) := by
  rw [replacement_toString h]
  cases slot.isNumber <;> rfl

theorem hasVersion_replacement (h : n < UInt64.size) (slot : Value) :
    (slot.replacement (toString n)).HasVersion n :=
  ⟨_, scalarText?_replacement h slot, Version.hasMajor_toString n⟩

/-- Of two numbers in the place of a scalar the second one stays. -/
theorem replacement_toString_replacement (hm : m < UInt64.size) (hn : n < UInt64.size)
    (slot : Value) :
    (slot.replacement (toString m)).replacement (toString n) = slot.replacement (toString n) := by
  rw [replacement_toString hn, isNumber_replacement hm, replacement_toString hn]

end Value

namespace ToolVersion

section Parts

variable {least first second n : Nat} {slot : Value} {action key : String} {location : Location}

theorem small_of_lt (h : n < UInt32.size) : n < UInt64.size := Nat.lt_trans h (by decide)

/-- A version below the least one gives way to it. -/
theorem result_raise_of_lt (hleast : least < UInt32.size) (hversion : slot.HasVersion n)
    (hlt : n < least) (location : Location) :
    (raise location least slot).result = slot.replacement (toString least) := by
  obtain ⟨text, htext, hmajor⟩ := hversion
  have hraised : Version.raised? text least = some (toString least) :=
    (Version.raised?_eq_some_iff hleast).mpr ⟨n, hmajor, hlt, rfl⟩
  rw [raise, htext]
  dsimp only
  rw [hraised]
  rfl

/-- Whatever is no version below the least one is left alone. -/
theorem raise_eq_pure (hleast : least < UInt32.size)
    (hkept : ∀ n, slot.HasVersion n → least ≤ n) (location : Location) :
    raise location least slot = pure slot := by
  unfold raise
  split
  · next text htext =>
    split
    · next hraised =>
      obtain ⟨n, hmajor, hlt, -⟩ := (Version.raised?_eq_some_iff hleast).mp hraised
      exact absurd hlt (Nat.not_lt.mpr (hkept n ⟨text, htext, hmajor⟩))
    · rfl
  · rfl

/-- A scalar holds a version below the least one, or nothing that is to be raised. -/
theorem lt_or_le_of_hasVersion (least : Nat) (slot : Value) :
    (∃ n, slot.HasVersion n ∧ n < least) ∨ ∀ n, slot.HasVersion n → least ≤ n := by
  by_cases h : ∃ n, slot.HasVersion n ∧ n < least
  · exact .inl h
  · exact .inr fun n hn => Nat.not_lt.mp fun hlt => h ⟨n, hn, hlt⟩

/-- To raise a version twice is to raise it to the greater of both. -/
theorem raise_raise (hfirst : first < UInt32.size) (hsecond : second < UInt32.size)
    (location : Location) (slot : Value) :
    (raise location second (raise location first slot).result).result =
      (raise location (max first second) slot).result := by
  have hmax : max first second < UInt32.size := Nat.max_lt.mpr ⟨hfirst, hsecond⟩
  rcases lt_or_le_of_hasVersion first slot with ⟨n, hversion, hlt⟩ | hkept
  · have hnow := Value.hasVersion_replacement (small_of_lt hfirst) slot
    rw [result_raise_of_lt hfirst hversion hlt,
      result_raise_of_lt hmax hversion (Nat.lt_of_lt_of_le hlt (Nat.le_max_left _ _))]
    rcases Nat.lt_or_ge first second with hless | hge
    · rw [result_raise_of_lt hsecond hnow hless, Nat.max_eq_right (Nat.le_of_lt hless)]
      exact Value.replacement_toString_replacement (small_of_lt hfirst) (small_of_lt hsecond) slot
    · have hkept : ∀ n, (slot.replacement (toString first)).HasVersion n → second ≤ n :=
        fun n hn => hnow.unique hn ▸ hge
      rw [raise_eq_pure hsecond hkept, Nat.max_eq_left hge, Editing.result_pure]
  · rw [raise_eq_pure hfirst hkept, Editing.result_pure]
    rcases Nat.le_total first second with hle | hle
    · rw [Nat.max_eq_right hle]
    · have hkept' : ∀ n, slot.HasVersion n → second ≤ n := fun n hn =>
        Nat.le_trans hle (hkept n hn)
      rw [Nat.max_eq_left hle, raise_eq_pure hsecond hkept', raise_eq_pure hfirst hkept]

/-- What becomes of a scalar where a least version is wanted. -/
structure RaisedTo (least : Nat) (old new : Value) : Prop where
  /-- A version is at least the wanted one afterwards. -/
  version : ∀ n, old.HasVersion n → new.HasVersion (max n least)
  /-- One that was below is written as the number alone. -/
  text : ∀ n, old.HasVersion n → n < least → new.scalarText? = some (toString least)
  /-- A number stays a number, and a text a text. -/
  kind : new.isNumber = old.isNumber
  /-- All else is kept. -/
  kept : (∀ n, old.HasVersion n → least ≤ n) → new = old

theorem RaisedTo.le {old new : Value} (h : RaisedTo least old new) (hversion : new.HasVersion n) :
    least ≤ n := by
  by_cases hold : ∃ m, old.HasVersion m
  · obtain ⟨m, hm⟩ := hold
    exact (h.version m hm).unique hversion ▸ Nat.le_max_right m least
  · have hkept : new = old := h.kept fun m hm => absurd ⟨m, hm⟩ hold
    exact absurd ⟨n, hkept ▸ hversion⟩ hold

theorem raisedTo_raise (hleast : least < UInt32.size) (location : Location) (slot : Value) :
    RaisedTo least slot (raise location least slot).result := by
  rcases lt_or_le_of_hasVersion least slot with ⟨n, hversion, hlt⟩ | hkept
  · have hsmall := small_of_lt hleast
    rw [result_raise_of_lt hleast hversion hlt]
    refine ⟨fun m hm => ?_, fun _ _ _ => Value.scalarText?_replacement hsmall slot,
      Value.isNumber_replacement hsmall slot, fun hkept => ?_⟩
    · rw [← hversion.unique hm, Nat.max_eq_right (Nat.le_of_lt hlt)]
      exact Value.hasVersion_replacement hsmall slot
    · exact absurd hlt (Nat.not_lt.mpr (hkept n hversion))
  · rw [raise_eq_pure hleast hkept, Editing.result_pure]
    exact ⟨fun n hn => (Nat.max_eq_left (hkept n hn)).symm ▸ hn,
      fun n hn hlt => absurd hlt (Nat.not_lt.mpr (hkept n hn)), rfl, fun _ => rfl⟩

/-! ## Steps -/

/-- A step uses the action with a ref. -/
def Uses (action : String) (step : Entries) : Prop :=
  (step.action?.any fun a => a.isNamed action && a.version.isSome) = true

instance (action : String) (step : Entries) : Decidable (Uses action step) :=
  inferInstanceAs (Decidable (_ = true))

/-- What stands under `with` and the key. -/
def input? (key : String) (step : Entries) : Option Value :=
  (step.get? "with").bind fun inputs => inputs.get? key

/-- A step with what stands under `with` and the key changed. -/
def overInput (key : String) (f : Value → Editing Value) (step : Entries) : Editing Entries :=
  step.overKey "with" (Value.overKey key f)

/-- A step with the value under `with` and the key emptied. -/
def aroundInput (key : String) (step : Entries) : Entries :=
  (overInput key (fun _ => pure .null) step).result

variable {f g both : Value → Editing Value} {step : Entries}

theorem result_overInput_overInput (h : ∀ value, (f (g value).result).result = (both value).result)
    (key : String) (step : Entries) :
    (overInput key f (overInput key g step).result).result = (overInput key both step).result := by
  unfold overInput
  rw [Value.result_overKeyOfEntries_overKey]
  exact Entries.result_overKey_congr fun inputs _ => Value.result_overKey_overKey h key inputs

theorem aroundInput_overInput (f : Value → Editing Value) (key : String) (step : Entries) :
    aroundInput key (overInput key f step).result = aroundInput key step :=
  result_overInput_overInput (fun _ => rfl) key step

theorem input?_overInput (f : Value → Editing Value) (key : String) (step : Entries) :
    input? key (overInput key f step).result =
      (input? key step).map fun slot => (f slot).result := by
  rw [input?, overInput, Entries.get?_overKey_self, input?]
  cases step.get? "with" with
  | none => rfl
  | some inputs => exact Value.get?_overKey inputs

theorem overInput_eq_pure (h : ∀ slot, input? key step = some slot → f slot = pure slot) :
    overInput key f step = pure step := by
  refine Entries.overKey_eq_pure fun inputs hinputs => ?_
  refine Value.overEntries_eq_pure inputs fun entries hentries => ?_
  refine Entries.overKey_eq_pure fun slot hslot => h slot ?_
  rw [input?, hinputs, Option.bind_some, Value.get?, hentries, Option.bind_some, hslot]

theorem uses_overInput : Uses action (overInput key f step).result ↔ Uses action step := by
  rw [Uses, overInput, Entries.action?_overKey_of_ne (by decide), Uses]

theorem raiseIn_of_uses (h : Uses action step) (key : String) (least : Nat) (location : Location) :
    raiseIn action key least location step =
      overInput key (raise (location.keys ["with", key]) least) step :=
  if_pos h

theorem raiseIn_of_not_uses (h : ¬ Uses action step) (key : String) (least : Nat)
    (location : Location) : raiseIn action key least location step = pure step :=
  if_neg h

/-- A step uses one action. -/
theorem eq_of_uses {other : String} (h : Uses action step) (hother : Uses other step) :
    action = other := by
  obtain ⟨a, ha, hnamed⟩ := (Option.any_eq_true _ _).mp h
  obtain ⟨a', ha', hnamed'⟩ := (Option.any_eq_true _ _).mp hother
  obtain rfl := Option.some.inj (ha.symm.trans ha')
  simp only [ActionRef.isNamed, Bool.and_eq_true, beq_iff_eq] at hnamed hnamed'
  rw [← hnamed.1, ← hnamed'.1]

theorem uses_raiseIn {other : String} : Uses other (raiseIn action key least location step).result ↔
    Uses other step := by
  by_cases h : Uses action step
  · rw [raiseIn_of_uses h, uses_overInput]
  · rw [raiseIn_of_not_uses h, Editing.result_pure]

/-- To raise the version of a step twice is to raise it to the greater of both. -/
theorem raiseIn_raiseIn (hfirst : first < UInt32.size) (hsecond : second < UInt32.size)
    (action key : String) (location : Location) (step : Entries) :
    (raiseIn action key second location (raiseIn action key first location step).result).result =
      (raiseIn action key (max first second) location step).result := by
  by_cases h : Uses action step
  · rw [raiseIn_of_uses (uses_raiseIn.mpr h), raiseIn_of_uses h, raiseIn_of_uses h]
    exact result_overInput_overInput (raise_raise hfirst hsecond _) key step
  · rw [raiseIn_of_not_uses h, Editing.result_pure, raiseIn_of_not_uses h, raiseIn_of_not_uses h]

/-- The versions of two tools are raised in any order. -/
theorem raiseIn_comm {other : String} (hne : action ≠ other) (key key' : String)
    (least least' : Nat) (location : Location) (step : Entries) :
    (raiseIn other key' least' location (raiseIn action key least location step).result).result =
      (raiseIn action key least location
        (raiseIn other key' least' location step).result).result := by
  by_cases h : Uses action step
  · have hother : ¬ Uses other step := fun hother => hne (eq_of_uses h hother)
    rw [raiseIn_of_not_uses (mt uses_raiseIn.mp hother), raiseIn_of_not_uses hother]
    rfl
  · rw [raiseIn_of_not_uses h, raiseIn_of_not_uses (mt uses_raiseIn.mp h)]
    rfl

/-- What becomes of a step where a least version is wanted. -/
structure RaisedStep (action key : String) (least : Nat) (old new : Entries) : Prop where
  /-- The step uses the action as before. -/
  uses : Uses action new ↔ Uses action old
  /-- What stands around the version is kept. -/
  around : aroundInput key new = aroundInput key old
  /-- The version is raised if the step uses the action. -/
  raised : Uses action old → Option.Rel (RaisedTo least) (input? key old) (input? key new)
  /-- Without a version below the least one the step is kept. -/
  kept : (Uses action old → ∀ slot n, input? key old = some slot → slot.HasVersion n →
    least ≤ n) → new = old

theorem raisedStep_raiseIn (hleast : least < UInt32.size) (action key : String)
    (location : Location) (step : Entries) :
    RaisedStep action key least step (raiseIn action key least location step).result := by
  refine ⟨uses_raiseIn, ?_, fun huses => ?_, fun hkept => ?_⟩
  · by_cases h : Uses action step
    · rw [raiseIn_of_uses h, aroundInput_overInput]
    · rw [raiseIn_of_not_uses h, Editing.result_pure]
  · rw [raiseIn_of_uses huses, input?_overInput]
    cases input? key step with
    | none => exact .none
    | some slot => exact .some (raisedTo_raise hleast _ slot)
  · by_cases h : Uses action step
    · rw [raiseIn_of_uses h, overInput_eq_pure fun slot hslot =>
        raise_eq_pure hleast (fun n hn => hkept h slot n hslot hn) _, Editing.result_pure]
    · rw [raiseIn_of_not_uses h, Editing.result_pure]

/-- A step that uses the action has no version below the least one afterwards. -/
theorem RaisedStep.le {old new : Entries} (h : RaisedStep action key least old new)
    (huses : Uses action new) (hslot : input? key new = some slot)
    (hversion : slot.HasVersion n) : least ≤ n := by
  have hraised := h.raised (h.uses.mp huses)
  rw [hslot] at hraised
  generalize input? key old = slot? at hraised
  cases hraised with
  | some hto => exact hto.le hversion

end Parts

/-! ## Documents -/

/-- A tool whose version can be raised. -/
inductive Tool where
  | java
  | node
  deriving Repr, DecidableEq

namespace Tool

/-- The action that sets the tool up. -/
def action : Tool → String
  | java => setupJava
  | node => "actions/setup-node"

/-- The key of its version among the inputs of the action. -/
def key : Tool → String
  | java => "java-version"
  | node => "node-version"

/-- Raise the version of the tool. -/
def raise : Tool → UInt32 → Value → Editing Value
  | java, least, doc => raiseJava least.toNat doc
  | node, least, doc => raiseNode least.toNat doc

theorem action_injective {tool other : Tool} (h : tool ≠ other) : tool.action ≠ other.action := by
  cases tool <;> cases other <;> first | exact absurd rfl h | decide

theorem raise_eq_overSteps (tool : Tool) (least : UInt32) (doc : Value) :
    tool.raise least doc = doc.overSteps (raiseIn tool.action tool.key least.toNat) := by
  cases tool <;> rfl

theorem toNat_max (m₁ m₂ : UInt32) : (max m₁ m₂).toNat = max m₁.toNat m₂.toNat := by
  show (if m₁ ≤ m₂ then m₂ else m₁).toNat = _
  split
  · next h => exact (Nat.max_eq_right (UInt32.le_iff_toNat_le.mp h)).symm
  · next h =>
    rw [UInt32.le_iff_toNat_le, Nat.not_le] at h
    exact (Nat.max_eq_left (Nat.le_of_lt h)).symm

theorem max_comm_least (m₁ m₂ : UInt32) : max m₁ m₂ = max m₂ m₁ := by
  rw [← UInt32.toNat_inj, toNat_max, toNat_max, Nat.max_comm]

/-- To raise the versions of a tool twice is to raise them to the greater of both. -/
theorem result_raise_raise (tool : Tool) (m₁ m₂ : UInt32) (doc : Value) :
    (tool.raise m₂ (tool.raise m₁ doc).result).result = (tool.raise (max m₁ m₂) doc).result := by
  rw [raise_eq_overSteps, raise_eq_overSteps, raise_eq_overSteps, Value.overSteps_overSteps,
    Value.result_overSteps_eq_iff, toNat_max]
  exact fun step _ => raiseIn_raiseIn m₁.toNat_lt_size m₂.toNat_lt_size _ _ step.1 step.2

/-- The versions of tools are raised in any order. -/
theorem result_raise_comm (tool other : Tool) (m₁ m₂ : UInt32) (doc : Value) :
    (other.raise m₂ (tool.raise m₁ doc).result).result =
      (tool.raise m₁ (other.raise m₂ doc).result).result := by
  by_cases h : tool = other
  · rw [h, result_raise_raise, result_raise_raise, max_comm_least]
  · rw [raise_eq_overSteps, raise_eq_overSteps, raise_eq_overSteps, raise_eq_overSteps,
      Value.overSteps_overSteps, Value.overSteps_overSteps, Value.result_overSteps_eq_iff]
    exact fun step _ => raiseIn_comm (action_injective h) _ _ _ _ step.1 step.2

/-- Each step of the document has its version raised. -/
theorem raisedStep_raise (tool : Tool) (least : UInt32) (doc : Value) :
    List.Forall₂ (fun old new => new.1 = old.1 ∧
      RaisedStep tool.action tool.key least.toNat old.2 new.2)
        doc.steps (tool.raise least doc).result.steps := by
  rw [raise_eq_overSteps, Value.steps_overSteps, List.forall₂_map_right_iff, List.forall₂_same]
  exact fun step _ => ⟨rfl, raisedStep_raiseIn least.toNat_lt_size _ _ step.1 step.2⟩

/-- No step that uses the action has a version below the least one afterwards. -/
theorem le_of_mem_steps_raise {tool : Tool} {least : UInt32} {doc slot : Value} {n : Nat} :
    ∀ step ∈ (tool.raise least doc).result.steps, Uses tool.action step.2 →
      input? tool.key step.2 = some slot → slot.HasVersion n → least.toNat ≤ n := by
  rw [raise_eq_overSteps, Value.steps_overSteps]
  intro step hstep huses hslot hversion
  obtain ⟨old, -, rfl⟩ := List.mem_map.mp hstep
  exact (raisedStep_raiseIn least.toNat_lt_size _ _ old.1 old.2).le huses hslot hversion

/-- To raise the versions of a tool twice is to raise them to the greater of both, and the versions
of the tools are raised in any order. Nothing around the steps changes, in each step that uses the
action the version is raised and all else is kept, and no such step has a lesser version then. -/
theorem raise_laws (tool other : Tool) (m₁ m₂ : UInt32) (doc : Value) :
    (tool.raise m₂ (tool.raise m₁ doc).result).result = (tool.raise (max m₁ m₂) doc).result ∧
      (tool.raise m₁ (tool.raise m₂ doc).result).result = (tool.raise (max m₁ m₂) doc).result ∧
      (other.raise m₂ (tool.raise m₁ doc).result).result =
        (tool.raise m₁ (other.raise m₂ doc).result).result ∧
      (tool.raise m₁ doc).result.aroundSteps = doc.aroundSteps ∧
      List.Forall₂ (fun old new => new.1 = old.1 ∧
        RaisedStep tool.action tool.key m₁.toNat old.2 new.2)
          doc.steps (tool.raise m₁ doc).result.steps ∧
      ∀ step ∈ (tool.raise m₁ doc).result.steps, ∀ slot n, Uses tool.action step.2 →
        input? tool.key step.2 = some slot → slot.HasVersion n → m₁.toNat ≤ n := by
  refine ⟨result_raise_raise tool m₁ m₂ doc, ?_, result_raise_comm tool other m₁ m₂ doc, ?_,
    raisedStep_raise tool m₁ doc, fun step hstep _ _ => le_of_mem_steps_raise step hstep⟩
  · rw [result_raise_raise, max_comm_least]
  · rw [raise_eq_overSteps, Value.aroundSteps_overSteps]

/-- A step that sets Java up. -/
def sampleSetUp (version : Value) : Entries :=
  [(.string "uses", .string "actions/setup-java@v4"),
    (.string "with", .mapping [(.string "java-version", version)])]

/-- A document with three such steps. -/
def sampleSteps (first second third : Value) : Value :=
  .mapping [(.string "steps", .sequence [.mapping (sampleSetUp first),
    .mapping (sampleSetUp second), .mapping (sampleSetUp third)])]

/-- A number below the least version is raised, a text above it and a name are kept. The number is
the least version then, and to raise it again is to raise it at once. -/
theorem raise_sampleSteps :
    let doc := sampleSteps (.number (.integer 11)) (.string "21.0.2+13") (.string "lts/*")
    let raised := sampleSteps (.number (.integer 17)) (.string "21.0.2+13") (.string "lts/*")
    let place : Location := ⟨[.key "steps", .index 0]⟩
    let version := Value.number (.integer 17)
    (java.raise 17 doc).result = raised ∧
      (java.raise 21 (java.raise 17 doc).result).result = (java.raise 21 doc).result ∧
      (place, sampleSetUp version) ∈ (java.raise 17 doc).result.steps ∧
      Uses java.action (sampleSetUp version) ∧
      input? java.key (sampleSetUp version) = some version ∧ version.HasVersion 17 ∧
      (17 : UInt32).toNat ≤ 17 := by
  intro doc raised place version
  obtain ⟨htwice, -, -, -, -, hleast⟩ := raise_laws java node 17 21 doc
  have hraised : (java.raise 17 doc).result = raised := by decide
  have hstep : (place, sampleSetUp version) ∈ (java.raise 17 doc).result.steps := by
    rw [hraised]
    exact List.mem_cons_self
  have huses : Uses java.action (sampleSetUp version) := by decide
  have hversion : version.HasVersion 17 := ⟨toString 17, rfl, Version.hasMajor_toString 17⟩
  exact ⟨hraised, htwice, hstep, huses, rfl, hversion,
    hleast (place, sampleSetUp version) hstep version 17 huses rfl hversion⟩

end Tool

end ToolVersion

end WorkflowRecipes
