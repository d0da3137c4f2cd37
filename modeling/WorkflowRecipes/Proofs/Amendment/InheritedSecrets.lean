import WorkflowRecipes.Proofs.Amendment.SecretReferences
import WorkflowRecipes.Proofs.Document.Framing

/-!
# Jobs that inherit secrets

A job inherits all secrets instead of being given them one by one if each of them is passed on under
its own name, and only then. Whatever else is made of a secret, under another name, with more text,
or in an expression that computes, keeps the job as it is.

Results:
1. `passesAllOn_iff`: what it is to pass secrets on.
2. `not_isReference_of_alters`: whatever alters a secret does not pass it on.
3. `inherits_changed`: what becomes of one job.
4. `visit_inherits`: what becomes of a document.
-/

namespace WorkflowRecipes.InheritSecrets

open SecretReference

/-! ## What is meant -/

/-- Every secret is passed on under its own name, and there is at least one. -/
def PassesOn (secrets : Entries) : Prop :=
  secrets ≠ [] ∧ ∀ e ∈ secrets, ∃ key text, e.1.text? = some key ∧ e.2.text? = some text ∧
    IsReference key.toList text.toList

/-- A job has secrets, tags looked through, and passes them on. -/
def Forwards (job : Entries) : Prop :=
  ∃ slot secrets, job.get? "secrets" = some slot ∧ slot.entries? = some secrets ∧ PassesOn secrets

/-- A job gives a secret a text. -/
def Gives (job : Entries) (key text : String) : Prop :=
  ∃ slot secrets, job.get? "secrets" = some slot ∧ slot.entries? = some secrets ∧
    ∃ e ∈ secrets, e.1.text? = some key ∧ e.2.text? = some text

/-- A text makes something else of the secret with a name: it refers to another one, has more than
the reference, or is an expression for something else. -/
inductive Alters (key : List Char) : List Char → Prop
  | renames {name ref : List Char} : IsWord name → IsReference name ref → name ≠ key →
      Alters key ref
  | adds {name before ref after : List Char} : IsWord name → IsReference name ref →
      (before ≠ [] ∨ after ≠ []) → Alters key (before ++ (ref ++ after))
  | computes {inner : List Char} : Text.trim inner ≠ "secrets.".toList ++ key →
      Alters key ("$\x7b\x7b".toList ++ (inner ++ "\x7d\x7d".toList))

/-- What becomes of a job. -/
structure Inherits (old new : Entries) : Prop where
  /-- A job that passes its secrets on changes, and no other one. -/
  changed_iff : new ≠ old ↔ Forwards old
  /-- The value under `secrets` is all that changes. -/
  changed : Forwards old → new = old.set "secrets" (.string "inherit")
  /-- A job in which something else is made of a secret stays as it is. -/
  kept : ∀ key text, Gives old key text → IsWord key.toList → Alters key.toList text.toList →
    new = old

/-! ## Secrets that are passed on -/

theorem passesAllOn_iff {secrets : Entries} : passesAllOn secrets = true ↔ PassesOn secrets := by
  rw [passesAllOn, Bool.and_eq_true, Bool.not_eq_true', ← Bool.not_eq_true, List.isEmpty_iff,
    List.all_eq_true, PassesOn]
  refine and_congr_right' (forall₂_congr fun e _ => ?_)
  obtain ⟨key, value⟩ := e
  dsimp only
  cases key.text? with
  | none => simp
  | some name =>
    cases value.text? with
    | none => simp
    | some text => simp [isWhole_iff]

theorem forwards_iff {job : Entries} : Forwards job ↔
    ∃ slot, job.get? "secrets" = some slot ∧ slot.entries?.any passesAllOn = true := by
  refine exists_congr fun slot => ?_
  simp only [Option.any_eq_true, passesAllOn_iff, exists_and_left]

/-- What stands between the braces of a reference, but for blanks. -/
theorem trim_eq_of_isReference {key inner : List Char} (hkey : IsWord key)
    (h : IsReference key ("$\x7b\x7b".toList ++ (inner ++ "\x7d\x7d".toList))) :
    Text.trim inner = "secrets.".toList ++ key := by
  obtain ⟨left, right, hleft, hright, heq⟩ := h
  have hends : inner ++ "\x7d\x7d".toList =
      (left ++ (("secrets.".toList ++ key) ++ right)) ++ "\x7d\x7d".toList := by
    rw [List.append_cancel_left heq]
    simp only [List.append_assoc]
  rw [List.append_cancel_right hends]
  refine Text.trim_around hleft hright (head?_secrets key) ?_
  rw [List.getLast?_append]
  cases hlast : key.getLast? with
  | none => exact ⟨'.', rfl, by decide⟩
  | some c => exact ⟨c, rfl, (hkey c (List.mem_of_getLast? hlast)).2.2⟩

/-- Whatever alters a secret does not pass it on. -/
theorem not_isReference_of_alters {key text : List Char} (hkey : IsWord key)
    (h : Alters key text) : ¬ IsReference key text := by
  intro hwhole
  cases h with
  | renames hname href hne =>
    have hsame : text ++ [] = text ++ [] := rfl
    exact hne (reference_unique hname hkey href hwhole hsame).1
  | @adds name before ref after hname href hmore =>
    have heq : [] ++ ((before ++ (ref ++ after)) ++ []) = before ++ (ref ++ after) := by simp
    -- The reference inside is no other than the whole text.
    rcases reference_apart hkey hname hwhole href heq with
      ⟨-, hbefore, -, hafter⟩ | ⟨between, -, hafter⟩ | ⟨between, hbefore, -⟩
    · exact hmore.elim (fun h => h hbefore.symm) fun h => h hafter.symm
    · obtain ⟨tail, rfl, -⟩ := exists_eq_cons hname href
      simp at hafter
    · obtain ⟨tail, rfl, -⟩ := exists_eq_cons hname href
      simp at hbefore
  | computes hinner => exact hinner (trim_eq_of_isReference hkey hwhole)

/-! ## One job -/

/-- The change of a job. -/
def inJob (location : Location) (job : Entries) : Editing Entries :=
  job.overKey "secrets" (inherit location)

theorem result_inJob_of_forwards {job : Entries} (h : Forwards job) (location : Location) :
    (inJob location job).result = job.set "secrets" (.string "inherit") := by
  obtain ⟨slot, hslot, hpasses⟩ := forwards_iff.mp h
  have hkey : job.hasKey "secrets" = true := by rw [Entries.hasKey_eq, hslot]; rfl
  rw [Entries.set_eq_overKey hkey]
  refine Entries.result_overKey_congr fun value hvalue => ?_
  obtain rfl := Option.some.inj (hslot.symm.trans hvalue)
  rw [inherit, if_pos hpasses]
  rfl

theorem result_inJob_of_not_forwards {job : Entries} (h : ¬ Forwards job) (location : Location) :
    (inJob location job).result = job := by
  have hkept : inJob location job = pure job := Entries.overKey_eq_pure fun slot hslot =>
    if_neg fun hpasses => h (forwards_iff.mpr ⟨slot, hslot, hpasses⟩)
  exact congrArg Editing.result hkept

theorem set_ne_of_forwards {job : Entries} (h : Forwards job) :
    job.set "secrets" (.string "inherit") ≠ job := by
  intro heq
  obtain ⟨slot, secrets, hslot, hsecrets, -⟩ := h
  rw [← heq, Entries.get?_set_self, Option.some.injEq] at hslot
  rw [← hslot] at hsecrets
  cases hsecrets

theorem not_forwards_of_alters {job : Entries} {key text : String} (hgives : Gives job key text)
    (hkey : IsWord key.toList) (halters : Alters key.toList text.toList) : ¬ Forwards job := by
  rintro ⟨slot, secrets, hslot, hsecrets, -, hall⟩
  obtain ⟨slot', secrets', hslot', hsecrets', e, he, hekey, hetext⟩ := hgives
  obtain rfl := Option.some.inj (hslot.symm.trans hslot')
  obtain rfl := Option.some.inj (hsecrets.symm.trans hsecrets')
  obtain ⟨key', text', hekey', hetext', href⟩ := hall e he
  obtain rfl := Option.some.inj (hekey.symm.trans hekey')
  obtain rfl := Option.some.inj (hetext.symm.trans hetext')
  exact not_isReference_of_alters hkey halters href

theorem inherits_changed (location : Location) (job : Entries) :
    Inherits job (inJob location job).result := by
  by_cases h : Forwards job
  · rw [result_inJob_of_forwards h]
    exact ⟨iff_of_true (set_ne_of_forwards h) h, fun _ => rfl,
      fun key text hgives hkey halters => absurd h (not_forwards_of_alters hgives hkey halters)⟩
  · rw [result_inJob_of_not_forwards h]
    exact ⟨iff_of_false (fun hne => hne rfl) h, fun hforwards => absurd hforwards h,
      fun _ _ _ _ _ => rfl⟩

/-- Secrets are inherited by the jobs that pass each of them on under its own name, at least one,
and by no others. A job that renames, adds to or computes a secret stays as it is, and so does all
that stands around the jobs. -/
theorem visit_inherits (doc : Value) :
    (visit doc).result.aroundJobs = doc.aroundJobs ∧
      List.Forall₂ (fun old new => new.1 = old.1 ∧ new.2.1 = old.2.1 ∧ Inherits old.2.2 new.2.2)
        doc.jobs (visit doc).result.jobs := by
  refine ⟨Value.aroundJobs_overJobs inJob doc, ?_⟩
  have hjobs : (visit doc).result.jobs = _ := Value.jobs_overJobs inJob doc
  rw [hjobs, List.forall₂_map_right_iff, List.forall₂_same]
  exact fun job _ => ⟨rfl, rfl, inherits_changed job.2.1 job.2.2⟩

/-- A job that passes two secrets on, in two ways of writing, and one that renames the second. -/
example :
    (visit (.mapping [(.string "jobs", .mapping [
      (.string "a", .mapping [(.string "secrets", .tagged "t" (.mapping [
        (.string "A", .string "$\x7b\x7bsecrets.A\x7d\x7d"),
        (.string "B", .string "$\x7b\x7b secrets.B \x7d\x7d")]))]),
      (.string "b", .mapping [(.string "secrets", .mapping [
        (.string "A", .string "$\x7b\x7b secrets.A \x7d\x7d"),
        (.string "B", .string "$\x7b\x7b secrets.BB \x7d\x7d")])])])])).edits =
      [⟨⟨[.key "jobs", .key "a", .key "secrets"]⟩, "secrets: inherit"⟩] := by
  decide

end WorkflowRecipes.InheritSecrets
