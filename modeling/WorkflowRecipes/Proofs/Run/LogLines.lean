import WorkflowRecipes.Proofs.Run.Effect
import WorkflowRecipes.Proofs.Text.Json
import WorkflowRecipes.Proofs.Text.Octets

/-!
# The lines of a log

An event is appended to a log without a look at what the log holds. It stands on a line of its own
if the log is empty or ends in a line break. Behind a line that was left unfinished it stands on
that line.

Results:
1. `read?_json`: the JSON of an event is read back as its time, its tag and its fields.
2. `lineBreak_not_mem_json`: it has no line break in it.
3. `append_lines`: what is in the log afterwards, line by line.
-/

namespace WorkflowRecipes

/-! ## Lines of octets -/

namespace Octets

/-- The octet of a line break. -/
def lineBreak : UInt8 := 10

/-- The lines of a file. What follows the last line break is a line too, unless nothing does. -/
def lines : List UInt8 → List (List UInt8)
  | [] => []
  | octet :: octets =>
    if octet = lineBreak then [] :: lines octets
    else
      match lines octets with
      | [] => [[octet]]
      | line :: rest => (octet :: line) :: rest

/-- No line is unfinished. -/
def IsFinished (octets : List UInt8) : Prop := octets.getLast?.all (· == lineBreak)

theorem lines_finish {line : List UInt8} (h : lineBreak ∉ line) (octets : List UInt8) :
    lines (line ++ lineBreak :: octets) = line :: lines octets := by
  induction line with
  | nil => simp [lines]
  | cons octet line ih =>
    rw [List.mem_cons, not_or] at h
    rw [List.cons_append, lines, if_neg (Ne.symm h.1), ih h.2]

theorem isFinished_cons {octet : UInt8} {octets : List UInt8} :
    IsFinished (octet :: octets) ↔ IsFinished octets ∧ (octets = [] → octet = lineBreak) := by
  cases octets with
  | nil => simp [IsFinished]
  | cons second octets => simp [IsFinished, List.getLast?_cons_cons]

theorem lines_ne_nil {octets : List UInt8} (h : octets ≠ []) : lines octets ≠ [] := by
  cases octets with
  | nil => exact absurd rfl h
  | cons octet octets =>
    rw [lines]
    split
    · exact List.cons_ne_nil _ _
    · split <;> exact List.cons_ne_nil _ _

/-- Behind a finished line there are new lines. -/
theorem lines_append_of_finished {old : List UInt8} (h : IsFinished old) (octets : List UInt8) :
    lines (old ++ octets) = lines old ++ lines octets := by
  induction old with
  | nil => rfl
  | cons octet old ih =>
    obtain ⟨hold, hlast⟩ := isFinished_cons.mp h
    rw [List.cons_append, lines, lines, ih hold]
    by_cases hbreak : octet = lineBreak
    · rw [if_pos hbreak, if_pos hbreak, List.cons_append]
    · obtain ⟨line, rest, hlines⟩ :=
        List.exists_cons_of_ne_nil (lines_ne_nil fun hnil => hbreak (hlast hnil))
      rw [if_neg hbreak, if_neg hbreak, hlines]
      rfl

/-- What stands behind an unfinished line, up to a line break, belongs to it. -/
theorem lines_append_of_not_finished {old : List UInt8} (h : ¬ IsFinished old) {line : List UInt8}
    (hline : lineBreak ∉ line) :
    ∃ finished part, lines old = finished ++ [part] ∧
      lines (old ++ (line ++ [lineBreak])) = finished ++ [part ++ line] := by
  induction old with
  | nil => exact absurd rfl h
  | cons octet old ih =>
    rw [isFinished_cons, Classical.not_and_iff_not_or_not] at h
    by_cases hold : IsFinished old
    · obtain ⟨rfl, hbreak⟩ : old = [] ∧ octet ≠ lineBreak := by
        simpa [hold, Classical.not_imp] using h
      have hwhole : lineBreak ∉ octet :: line := by simp [hline, Ne.symm hbreak]
      exact ⟨[], [octet], by simp [lines, hbreak], lines_finish hwhole []⟩
    · obtain ⟨finished, part, hlines, hafter⟩ := ih hold
      rw [List.cons_append, lines, lines, hlines, hafter]
      by_cases hbreak : octet = lineBreak
      · rw [if_pos hbreak, if_pos hbreak]
        exact ⟨[] :: finished, part, rfl, rfl⟩
      · rw [if_neg hbreak, if_neg hbreak]
        cases finished with
        | nil => exact ⟨[], octet :: part, rfl, rfl⟩
        | cons first finished => exact ⟨(octet :: first) :: finished, part, rfl, rfl⟩

theorem lineBreak_not_mem_utf8EncodeChar {c : Char} (h : c ≠ '\n') :
    lineBreak ∉ String.utf8EncodeChar c := by
  have hval : c.val.toNat ≠ 10 := fun hval => h (Char.ext (UInt32.toNat_inj.mp hval))
  have hoctet : ∀ n : Nat, n % 256 ≠ 10 → lineBreak ≠ UInt8.ofNat n := by
    intro n hn heq
    exact hn (by simpa [lineBreak] using (congrArg UInt8.toNat heq).symm)
  unfold String.utf8EncodeChar
  dsimp only
  -- The octets of a longer form are all at least 128.
  split_ifs
  all_goals
    simp (disch := omega) only [List.mem_cons, List.not_mem_nil, hoctet, or_self, not_false_eq_true]

theorem lineBreak_not_mem_ofText {text : String} (h : '\n' ∉ text.toList) :
    lineBreak ∉ ofText text := by
  rw [ofText_eq_flatMap, List.mem_flatMap]
  rintro ⟨c, hc, hbreak⟩
  refine lineBreak_not_mem_utf8EncodeChar ?_ hbreak
  rintro rfl
  exact h hc

end Octets

/-! ## The JSON of an event -/

/-- The value of a field, as JSON. -/
def RunEvent.FieldValue.toJson : RunEvent.FieldValue → Json
  | .text value => .string value
  | .texts value => .array (value.map .string)
  | .number value => .number value 0

/-- The time, the tag and the fields of an event, as a JSON object. -/
def RunEvent.toJson (time : String) (event : RunEvent) : Json :=
  .object (("ts", .string time) :: ("event", .string event.tag) ::
    event.fields.map fun (name, value) => (name, value.toJson))

theorem lineBreak_not_mem_intercalate {pieces : List String}
    (h : ∀ piece ∈ pieces, '\n' ∉ piece.toList) : '\n' ∉ (",".intercalate pieces).toList := by
  rw [String.toList_intercalate]
  induction pieces with
  | nil => exact List.not_mem_nil
  | cons piece pieces ih =>
    have hpiece := h piece List.mem_cons_self
    have hpieces := ih fun other hother => h other (List.mem_cons_of_mem piece hother)
    cases pieces with
    | nil => simpa using hpiece
    | cons next pieces =>
      rw [List.map_cons, List.map_cons, List.intercalate_cons_cons, ← List.map_cons]
      simpa [hpiece] using hpieces

theorem lineBreak_not_mem_hexText (width n : Nat) : '\n' ∉ Text.hexText width n := by
  have hdigit : ∀ d : Fin 16, '\n' ≠ Text.hexDigit d.val := by decide
  induction width generalizing n with
  | zero => exact List.not_mem_nil
  | succ width ih =>
    have hlast : '\n' ≠ Text.hexDigit n := by
      rw [← Json.hexDigit_mod]
      exact hdigit ⟨n % 16, Nat.mod_lt n (by decide)⟩
    rw [Text.hexText, List.mem_append, List.mem_singleton, not_or]
    exact ⟨ih (n / 16), hlast⟩

theorem lineBreak_not_mem_jsonChar (c : Char) : '\n' ∉ Text.jsonChar c := by
  unfold Text.jsonChar
  split
  all_goals try decide
  next hbreak _ _ _ _ =>
    split
    · simp [lineBreak_not_mem_hexText]
    · simpa using Ne.symm hbreak

theorem lineBreak_not_mem_jsonQuoted (text : String) : '\n' ∉ (jsonQuoted text).toList := by
  simp [jsonQuoted, lineBreak_not_mem_jsonChar]

namespace RunEvent

theorem reads_fieldValue (value : FieldValue) : Json.Reads value.json.toList value.toJson := by
  cases value with
  | text value => exact Json.reads_string value
  | texts value => exact Json.reads_array fun text _ => Json.reads_string text
  | number value => exact Json.reads_natural value

/-- The JSON of an event is read back as the event. -/
theorem read?_json (time : String) (event : RunEvent) :
    Json.read? (event.json time).toList = some (event.toJson time) :=
  Json.read?_of_reads (Json.reads_object fun member _ => reads_fieldValue member.2)

theorem lineBreak_not_mem_fieldValue (value : FieldValue) : '\n' ∉ value.json.toList := by
  cases value with
  | text value => exact lineBreak_not_mem_jsonQuoted value
  | texts value =>
    have hitems : '\n' ∉ (",".intercalate (value.map jsonQuoted)).toList := by
      refine lineBreak_not_mem_intercalate ?_
      simp [lineBreak_not_mem_jsonQuoted]
    simpa [FieldValue.json] using hitems
  | number value =>
    intro hbreak
    have hdigit : '\n'.isDigit :=
      Nat.isDigit_of_mem_toDigits (by decide) (by decide) (Nat.toList_repr ▸ hbreak)
    exact absurd hdigit (by decide)

theorem lineBreak_not_mem_json (time : String) (event : RunEvent) :
    '\n' ∉ (event.json time).toList := by
  have hmember : ∀ member : String × FieldValue,
      '\n' ∉ (Json.memberText FieldValue.json member).toList := by
    intro member
    simp [Json.memberText, lineBreak_not_mem_jsonQuoted, lineBreak_not_mem_fieldValue]
  have hmembers : '\n' ∉ (",".intercalate ((("ts", .text time) :: ("event", .text event.tag) ::
      event.fields).map (Json.memberText FieldValue.json))).toList := by
    refine lineBreak_not_mem_intercalate fun piece hpiece => ?_
    obtain ⟨member, -, rfl⟩ := List.mem_map.mp hpiece
    exact hmember member
  have hwritten : event.json time = "\x7b" ++ ",".intercalate ((("ts", .text time) ::
    ("event", .text event.tag) :: event.fields).map (Json.memberText FieldValue.json)) ++ "\x7d" := rfl
  rw [hwritten, String.toList_append, String.toList_append, List.mem_append, List.mem_append]
  simp only [hmembers, or_false]
  decide

/-! ## Appending -/

theorem exists_route_of_read {tree : FileTree} {home : Route} {path : String} {content : ByteArray}
    (h : tree.read home path = .ok content) :
    ∃ route mode, tree.resolve home true path = .ok route ∧
      tree.get? route = some (.file content mode) := by
  unfold FileTree.read FileTree.entry at h
  cases hr : tree.resolve home true path with
  | error fault => simp [hr, Except.bind] at h
  | ok route =>
    simp only [hr, Except.bind] at h
    cases hentry : tree.get? route with
    | none => simp [hentry] at h
    | some entry =>
      cases entry with
      | file content' mode =>
        obtain rfl : content' = content := by simpa [hentry] using h
        exact ⟨route, mode, rfl, hentry⟩
      | directory mode => simp [hentry] at h
      | link target => simp [hentry] at h

/-- A path that could be read leads to the same file once more directories are made. -/
theorem contentAt_of_read {tree ready : FileTree} (hgrows : tree.Grows ready) {home route : Route}
    {path : String} (hr : ready.resolve home true path = .ok route) {content : ByteArray}
    (hread : tree.read home path = .ok content) : tree.contentAt route = content := by
  obtain ⟨found, mode, hfound, hfile⟩ := exists_route_of_read hread
  have hsame := FileTree.resolve_of_extends hgrows.extends (by rw [hfile]; rfl) hfound
  rw [hr] at hsame
  obtain rfl := Except.ok.inj hsame
  exact FileTree.contentAt_of_file hfile

/-- What was at the place of a log before an event was appended, and what is there afterwards. -/
structure Appended (event : RunEvent) (setting : Setting) (path : String) (before after : Disk)
    (old new : ByteArray) : Prop where
  read : after.tree.read before.home path = .ok new
  content : new = old ++ (event.line setting.time).toUTF8
  stood : ∃ route, after.tree.resolve before.home true path = .ok route ∧
    before.tree.contentAt route = old
  wasRead : ∀ content, before.tree.read before.home path = .ok content → old = content

/-- To append an event changes the log by its line. -/
theorem append_appended (event : RunEvent) (setting : Setting) (path : String) (before : Disk) :
    Disk.Ends (event.append setting path) before (Disk.Either
      (fun _ after => ∃ old new, Appended event setting path before after old new)
      fun _ _ => True) := by
  refine Disk.Ends.blame (Disk.Ends.bind (Run.makeParent_ends path before) ?_ fun _ _ _ => trivial)
  rintro ⟨⟩ ready ⟨hhome, hready⟩
  have hgrows := prepare_grows hready
  have hopen : Disk.Ends (Disk.blame LogFault.opening <| Disk.step fun tree home =>
      tree.openFile home path) ready (Disk.Either
        (fun route opened => opened.tree.resolve before.home true path = .ok route ∧
          (∃ mode, opened.tree.get? route = some (.file (before.tree.contentAt route) mode)) ∧
            ∀ content, before.tree.read before.home path = .ok content →
              before.tree.contentAt route = content)
        fun _ _ => True) := by
    refine Disk.Ends.blame (Disk.Ends.step ?_ fun _ _ => trivial)
    intro route opened _ hopened
    rw [hhome] at hopened
    obtain ⟨hr, hcases⟩ := FileTree.openFile_cases hopened
    refine ⟨?_, ?_, fun content => contentAt_of_read hgrows hr⟩
    · rcases hcases with ⟨-, rfl⟩ | ⟨hnone, rfl⟩
      · exact hr
      · exact FileTree.resolve_put_of_none hnone hr _ _
    · rw [← hgrows.contentAt route]
      rcases hcases with ⟨⟨content, mode, hfile⟩, rfl⟩ | ⟨hnone, rfl⟩
      · exact ⟨mode, by rw [FileTree.contentAt_of_file hfile, hfile]⟩
      · rw [FileTree.contentAt_of_none hnone]
        exact ⟨_, FileTree.get?_put_self (FileTree.ne_nil_of_get?_none hnone) _⟩
  refine hopen.bind ?_ fun _ _ _ => trivial
  rintro route opened ⟨hr, ⟨mode, hfile⟩, hread⟩
  refine Disk.Ends.blame (Disk.Ends.change ?_ fun _ _ => trivial)
  intro after _ hafter
  cases hafter
  rw [FileTree.overContent_of_file hfile]
  have hr' := FileTree.resolve_of_extends (FileTree.extends_put_of_file hfile
    (before.tree.contentAt route ++ (event.line setting.time).toUTF8) mode) (by rw [hfile]; rfl) hr
  have hread' := FileTree.read_of_file hr'
    (FileTree.get?_put_self (FileTree.ne_nil_of_get?_file hfile) _)
  exact ⟨_, _, hread', rfl, ⟨route, hr', rfl⟩, hread⟩

/-- An appended event is read back from the last line. It is alone there if no line was unfinished;
else it stands right behind what was on that line. -/
theorem append_lines {event : RunEvent} {setting : Setting} {path : String} {before after : Disk}
    (h : Disk.outcome (event.append setting path) before = (.ok (), after)) :
    ∃ old new object, Appended event setting path before after old new ∧
      Json.read? object.toList = some (event.toJson setting.time) ∧
      new.data.toList = old.data.toList ++ (Octets.ofText object ++ [Octets.lineBreak]) ∧
      (Octets.IsFinished old.data.toList →
        Octets.lines new.data.toList = Octets.lines old.data.toList ++ [Octets.ofText object]) ∧
      (¬ Octets.IsFinished old.data.toList →
        ∃ finished part, Octets.lines old.data.toList = finished ++ [part] ∧
          Octets.lines new.data.toList = finished ++ [part ++ Octets.ofText object]) := by
  obtain ⟨old, new, happended⟩ := (append_appended event setting path before).of_outcome h
  have hobject := Octets.lineBreak_not_mem_ofText (lineBreak_not_mem_json setting.time event)
  have hnew : new.data.toList = old.data.toList ++
      (Octets.ofText (event.json setting.time) ++ [Octets.lineBreak]) := by
    have hline : Octets.ofText (event.line setting.time) =
        Octets.ofText (event.json setting.time) ++ [Octets.lineBreak] := Octets.ofText_append ..
    rw [happended.content, ByteArray.toList_data_append, ← hline]
    rfl
  refine ⟨old, new, event.json setting.time, happended, read?_json setting.time event, hnew, ?_, ?_⟩
  · intro hfinished
    rw [hnew, Octets.lines_append_of_finished hfinished, Octets.lines_finish hobject]
    rfl
  · intro hunfinished
    rw [hnew]
    exact Octets.lines_append_of_not_finished hunfinished hobject

/-- A disk with nothing but a log on it. -/
def logDisk (text : String) : Disk where
  tree := ({} : FileTree).put ["run.log"] (.file text.toUTF8 FileTree.fileMode)

/-- An event with a line break in its message. -/
def brokenEvent : RunEvent := .found "r-1" "ci.yml" "find" "$.jobs" "a\nb"

def logSetting : Setting :=
  { directory := "/", temporaryName := "new", runName := "r-1", time := "now" }

/-- The event is the second line of a log that has one. -/
theorem append_lines_second :
    ∃ before after : Disk,
      Disk.outcome (brokenEvent.append logSetting "run.log") before = (.ok (), after) ∧
      before.tree.read [] "run.log" = .ok "\x7b\x7d\n".toUTF8 ∧
      ∃ new object, after.tree.read [] "run.log" = .ok new ∧
        Json.read? object.toList = some (brokenEvent.toJson "now") ∧
        Octets.lines new.data.toList = [Octets.ofText "\x7b\x7d", Octets.ofText object] := by
  have hok : (Disk.outcome (brokenEvent.append logSetting "run.log")
      (logDisk "\x7b\x7d\n")).1 = .ok () := by decide +kernel
  have hread : (logDisk "\x7b\x7d\n").tree.read [] "run.log" = .ok "\x7b\x7d\n".toUTF8 := by
    decide +kernel
  have hlines : Octets.lines "\x7b\x7d\n".toUTF8.data.toList = [Octets.ofText "\x7b\x7d"] := by
    decide +kernel
  have hfinished : Octets.IsFinished "\x7b\x7d\n".toUTF8.data.toList := by
    unfold Octets.IsFinished
    decide +kernel
  obtain ⟨after, houtcome⟩ : ∃ after, Disk.outcome (brokenEvent.append logSetting "run.log")
      (logDisk "\x7b\x7d\n") = (.ok (), after) := ⟨_, Prod.ext hok rfl⟩
  obtain ⟨old, new, object, happended, hobject, -, halone, -⟩ := append_lines houtcome
  obtain rfl := happended.wasRead _ hread
  refine ⟨_, after, houtcome, hread, new, object, happended.read, hobject, ?_⟩
  rw [halone hfinished, hlines]
  rfl

/-- Behind an unfinished line there is no new one. -/
theorem append_to_unfinished_line :
    ∃ before after : Disk,
      Disk.outcome (brokenEvent.append logSetting "run.log") before = (.ok (), after) ∧
      ∃ old new, before.tree.read [] "run.log" = .ok old ∧ after.tree.read [] "run.log" = .ok new ∧
        ∀ line, Octets.lines new.data.toList ≠ Octets.lines old.data.toList ++ [line] := by
  have hok : (Disk.outcome (brokenEvent.append logSetting "run.log")
      (logDisk "\x7b")).1 = .ok () := by decide +kernel
  have hold : (logDisk "\x7b").tree.read [] "run.log" = .ok "\x7b".toUTF8 := by decide +kernel
  have hnew : (Disk.outcome (brokenEvent.append logSetting "run.log")
      (logDisk "\x7b")).2.tree.read [] "run.log" =
        .ok ("\x7b" ++ brokenEvent.line "now").toUTF8 := by decide +kernel
  have hlines : (Octets.lines ("\x7b" ++ brokenEvent.line "now").toUTF8.data.toList).length = 1 ∧
      (Octets.lines "\x7b".toUTF8.data.toList).length = 1 := by decide +kernel
  refine ⟨_, _, Prod.ext hok rfl, _, _, hold, hnew, ?_⟩
  intro line heq
  have hlength := congrArg List.length heq
  rw [List.length_append, hlines.1, hlines.2] at hlength
  cases hlength

end RunEvent

end WorkflowRecipes
