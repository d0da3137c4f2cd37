import WorkflowRecipes.Proofs.Yaml.FirstToken
import WorkflowRecipes.Proofs.Yaml.Pages

/-!
# The start of a rendering

A rendering starts with the first mark of its document. No mark is taken for a marker line, a
directive, a comment or something between tokens, whatever follows the rendering.

Results:
1. `startsDocument_number`, `startsDocument_of_plain`: the scalars that are written as they are.
2. `begins_renderDocument`: a rendering starts a document, whatever follows it.
-/

namespace WorkflowRecipes

namespace Yaml

/-- Whether a text starts a document, whatever follows it. -/
def BeginsDocument (text : List Char) : Prop := ∀ more, StartsDocument (text ++ more)

theorem BeginsDocument.longer {a b : List Char} (h : BeginsDocument a) (hab : a <+: b) :
    BeginsDocument b := by
  obtain ⟨c, rfl⟩ := hab
  exact fun more => List.append_assoc a c more ▸ h (c ++ more)

theorem begins_of_ne {c : Char} (hc : canStart c = true) (hdash : c ≠ '-') (hdot : c ≠ '.')
    (s : List Char) : BeginsDocument (c :: s) := fun more =>
  ⟨c, s ++ more, rfl, hc, fun h => hdash (List.cons_prefix_cons.mp h).1.symm,
    fun h => hdot (List.cons_prefix_cons.mp h).1.symm⟩

theorem begins_of_dash {c : Char} (hc : c ≠ '-') (s : List Char) :
    BeginsDocument ('-' :: c :: s) := fun more => by
  refine ⟨'-', c :: s ++ more, rfl, by decide, fun h => ?_, fun h => ?_⟩
  · exact hc (List.cons_prefix_cons.mp (List.cons_prefix_cons.mp h).2).1.symm
  · exact absurd (List.cons_prefix_cons.mp h).1 (by decide)

theorem prefix_of_not_mem {p w more : List Char} {c : Char} (hc : c ∉ p)
    (h : p <+: w ++ c :: more) : p <+: w := by
  induction w generalizing p with
  | nil =>
    cases p with
    | nil => exact List.prefix_rfl
    | cons d p =>
      exact absurd (List.cons_prefix_cons.mp h).1 fun hd => hc (hd ▸ List.mem_cons_self)
  | cons d w ih =>
    cases p with
    | nil => exact List.nil_prefix
    | cons e p =>
      obtain ⟨rfl, htail⟩ := List.cons_prefix_cons.mp h
      exact List.cons_prefix_cons.mpr ⟨rfl, ih (fun h => hc (List.mem_cons_of_mem _ h)) htail⟩

/-- A word is at its end before a character of no marker. -/
theorem StartsDocument.begins {word : List Char} (h : StartsDocument word) {c : Char}
    (hdash : c ≠ '-') (hdot : c ≠ '.') : BeginsDocument (word ++ [c]) := by
  intro more
  obtain ⟨d, s, rfl, hd, hstart, hend⟩ := h
  rw [List.append_assoc]
  refine ⟨d, s ++ ([c] ++ more), rfl, hd, fun h => hstart ?_, fun h => hend ?_⟩
  · exact prefix_of_not_mem (by simpa using hdash) h
  · exact prefix_of_not_mem (by simpa using hdot) h

/-! ## Numbers -/

theorem startsDocument_of_ne {c : Char} (hc : canStart c = true) (hdash : c ≠ '-')
    (hdot : c ≠ '.') (s : List Char) : StartsDocument (c :: s) := by
  simpa using begins_of_ne hc hdash hdot s []

theorem startsDocument_of_dash {c : Char} (hc : c ≠ '-') (s : List Char) :
    StartsDocument ('-' :: c :: s) := by
  simpa using begins_of_dash hc s []

theorem ne_of_isDigit {c d : Char} (hc : c.isDigit = true) (hd : d.isDigit = false) : c ≠ d := by
  rintro rfl
  exact absurd hc (by rw [hd]; decide)

theorem canStart_of_isDigit {c : Char} (h : c.isDigit = true) : canStart c = true := by
  have hne : ∀ d : Char, d.isDigit = false → (c == d) = false := fun d hd =>
    beq_eq_false_iff_ne.mpr (ne_of_isDigit h hd)
  simp (disch := decide) [canStart, isGap, isBreak, hne, bne]

/-- A text that starts with a digit, or with the power of ten behind no digits. -/
def StartsNumeral (text : List Char) : Prop :=
  ∃ c s, text = c :: s ∧ (c.isDigit = true ∨ c = 'e')

theorem StartsNumeral.append {a : List Char} (h : StartsNumeral a) (b : List Char) :
    StartsNumeral (a ++ b) := by
  obtain ⟨c, s, rfl, hc⟩ := h
  exact ⟨c, s ++ b, rfl, hc⟩

theorem StartsNumeral.of_digits {text : List Char} (hne : text ≠ [])
    (h : ∀ c ∈ text, c.isDigit = true) : StartsNumeral text := by
  obtain ⟨c, s, rfl⟩ := List.exists_cons_of_ne_nil hne
  exact ⟨c, s, rfl, .inl (h c List.mem_cons_self)⟩

theorem StartsNumeral.startsDocument {text : List Char} (h : StartsNumeral text) :
    StartsDocument text := by
  obtain ⟨c, s, rfl, hc | rfl⟩ := h
  · exact startsDocument_of_ne (canStart_of_isDigit hc) (ne_of_isDigit hc rfl)
      (ne_of_isDigit hc rfl) s
  · exact startsDocument_of_ne (by decide) (by decide) (by decide) s

theorem StartsNumeral.startsDocument_negative {text : List Char} (h : StartsNumeral text) :
    StartsDocument ('-' :: text) := by
  obtain ⟨c, s, rfl, hc | rfl⟩ := h
  · exact startsDocument_of_dash (ne_of_isDigit hc rfl) s
  · exact startsDocument_of_dash (by decide) s

theorem startsNumeral_toDigits (n : Nat) : StartsNumeral (Nat.toDigits 10 n) :=
  .of_digits Nat.toDigits_ne_nil fun _ => Nat.isDigit_of_mem_toDigits (by decide) (by decide)

theorem isDigit_of_mem_significantDigits {n : Nat} {c : Char}
    (h : c ∈ Shortest.significantDigits n) : c.isDigit = true := by
  have hmem := List.mem_reverse.mp ((List.dropWhile_sublist _).subset (List.mem_reverse.mp h))
  exact Nat.isDigit_of_mem_toDigits (by decide) (by decide) hmem

theorem startsNumeral_layOut {d : Shortest.Decimal} (hd : ∀ c ∈ d.digits, c.isDigit = true) :
    StartsNumeral (Binary64.layOut d) := by
  unfold Binary64.layOut
  dsimp only
  split
  · next hpoint =>
    split
    · cases hdigits : d.digits with
      | nil =>
        obtain ⟨n, hn⟩ : ∃ n, (d.point - ([] : List Char).length).toNat = n + 1 :=
          ⟨d.point.toNat - 1, by simp; omega⟩
        show StartsNumeral (List.replicate (d.point - ([] : List Char).length).toNat '0' ++ _)
        rw [hn]
        exact ⟨'0', _, rfl, .inl (by decide)⟩
      | cons c s => exact ⟨c, _, rfl, .inl (hd c (by simp [hdigits]))⟩
    · next hcount =>
      refine StartsNumeral.append (.of_digits ?_ fun c hc => hd c (List.mem_of_mem_take hc)) _
      rw [Ne, List.take_eq_nil_iff, not_or, ← List.length_eq_zero_iff]
      omega
  · split
    · exact ⟨'0', _, rfl, .inl (by decide)⟩
    · cases hdigits : d.digits with
      | nil => exact ⟨'e', _, rfl, .inr rfl⟩
      | cons c s => exact ⟨c, _, rfl, .inl (hd c (by simp [hdigits]))⟩

theorem startsDocument_number (n : Number) : StartsDocument n.text.toList := by
  cases n with
  | integer i =>
    cases i with
    | ofNat n =>
      have htext : (Number.integer (Int.ofNat n)).text.toList = Nat.toDigits 10 n :=
        Nat.toList_repr
      rw [htext]
      exact (startsNumeral_toDigits n).startsDocument
    | negSucc n =>
      have htext : (Number.integer (Int.negSucc n)).text.toList = '-' :: Nat.toDigits 10 (n + 1) := by
        show ("-" ++ Nat.repr (n + 1)).toList = _
        rw [String.toList_append, Nat.toList_repr]
        rfl
      rw [htext]
      exact (startsNumeral_toDigits (n + 1)).startsDocument_negative
  | float x =>
    cases x with
    | nan => exact ⟨'.', "nan".toList, rfl, by decide, by decide, by decide⟩
    | infinite negative =>
      cases negative with
      | false => exact ⟨'.', "inf".toList, rfl, by decide, by decide, by decide⟩
      | true => exact startsDocument_of_dash (c := '.') (by decide) "inf".toList
    | finite negative m q =>
      have hbody : StartsNumeral
          (if m = 0 then ['0', '.', '0'] else Binary64.layOut (Shortest.decimal m q)) := by
        split
        · exact ⟨'0', _, rfl, .inl (by decide)⟩
        · exact startsNumeral_layOut fun c => isDigit_of_mem_significantDigits
      rw [Number.text, Binary64.text, String.toList_ofList]
      cases negative with
      | false => exact hbody.startsDocument
      | true => exact hbody.startsDocument_negative

/-! ## Strings -/

theorem readsAsString_and_plainable {text : List Char} {inline : Bool}
    (h : Form.ofText text inline = .plain) :
    Form.readsAsString text = true ∧ Form.plainable text = true := by
  unfold Form.ofText at h
  dsimp only at h
  split at h
  · cases h
  split at h
  · split at h <;> cases h
  split at h
  · next hplain => exact Bool.and_eq_true_iff.mp hplain
  · split at h <;> cases h

theorem startsWith_of_isPrefix {p text : List Char} (h : p <+: text) :
    Text.startsWith p text = true := by
  obtain ⟨rest, rfl⟩ := h
  rw [Text.startsWith, Text.dropPrefix?_eq_some_iff.mpr rfl]
  rfl

theorem startsDocument_of_plain {text : List Char} {inline : Bool}
    (h : Form.ofText text inline = .plain) : StartsDocument text := by
  obtain ⟨hreads, hplain⟩ := readsAsString_and_plainable h
  cases text with
  | nil => exact absurd hreads (by decide)
  | cons c s =>
    simp only [Form.plainable, Form.quotable, startsAsMark, Bool.and_eq_true, Bool.not_eq_true',
      Bool.or_eq_false_iff, List.all_cons, List.head?_cons, Option.any_some] at hplain
    obtain ⟨⟨⟨⟨⟨⟨⟨⟨hprintable, -⟩, -⟩, -⟩, -⟩, ⟨hstart, hend⟩, hindicator, -⟩, -⟩, hblank⟩, -⟩ := hplain
    refine ⟨c, s, rfl, ?_, fun h => ?_, fun h => ?_⟩
    · have hne : ∀ d : Char, isPrintable d = false ∨ isSpaceOrBreak d = true ∨
          "#,[]\x7b\x7d&*!|>'\"%@`".toList.contains d = true → c ≠ d := by
        rintro d hd rfl
        rw [hprintable, hblank, hindicator] at hd
        simp at hd
      have htab : c ≠ '\t' := hne _ (.inl (by decide))
      have horder : c ≠ '\uFEFF' := hne _ (.inl (by decide))
      have hspace : c ≠ ' ' := hne _ (.inr (.inl (by decide)))
      have hcomment : c ≠ '#' := hne _ (.inr (.inr (by decide)))
      have hpercent : c ≠ '%' := hne _ (.inr (.inr (by decide)))
      have hbreak : isBreak c = false := (Bool.or_eq_false_iff.mp hblank).2
      simp [canStart, isGap, htab, horder, hspace, hcomment, hpercent, hbreak]
    · rw [startsWith_of_isPrefix h] at hstart
      cases hstart
    · rw [startsWith_of_isPrefix h] at hend
      cases hend

/-! ## Values -/

theorem writtenTag_eq (name : String) : ∃ s, writtenTag name = '!' :: s := by
  unfold writtenTag
  split <;> exact ⟨_, rfl⟩

/-- A page whose text, at the latest with the next break or colon, begins a document. -/
def Page.Leads (p : Page) : Prop :=
  (∃ word, StartsDocument word ∧ p = ({} : Page).mark word) ∨ BeginsDocument p.text

namespace Page

variable {p : Page}

theorem Leads.mark_colon (h : p.Leads) : BeginsDocument (p.mark [':']).text := by
  rw [text_mark]
  rcases h with ⟨word, hword, rfl⟩ | h
  · rw [text_mark]
    exact hword.begins (by decide) (by decide)
  · exact h.longer (List.prefix_append _ _)

theorem Leads.indentTo_zero (h : p.Leads) : BeginsDocument (p.indentTo 0).text := by
  rcases h with ⟨word, hword, rfl⟩ | h
  · have hbreak : ((({} : Page).mark word).indentTo 0).text = word ++ ['\n'] := by
      show ('\n' :: (putAll {} word).written).reverse = _
      rw [List.reverse_cons]
      exact congrArg (· ++ ['\n']) (text_putAll {} word)
    rw [hbreak]
    exact hword.begins (by decide) (by decide)
  · exact h.longer (extends_indentTo p 0).grows

/-- What stands on one line leads at the start of a page. -/
theorem leads_value (place : Place) {v : Value} (hitems : ∀ item rest, v ≠ .sequence (item :: rest))
    (hentries : ∀ entry rest, v ≠ .mapping (entry :: rest)) : (value {} place v).Leads := by
  have hword : ∀ {c : Char} {s : List Char}, canStart c = true → c ≠ '-' → c ≠ '.' →
      (mark {} (c :: s)).Leads := fun hc hdash hdot =>
    .inl ⟨_, startsDocument_of_ne hc hdash hdot _, rfl⟩
  match v with
  | .tagged tag v =>
    refine .inr (BeginsDocument.longer ?_ (extends_value _ place v).grows)
    obtain ⟨s, hs⟩ := writtenTag_eq tag
    rw [text_mark, hs]
    exact begins_of_ne (by decide) (by decide) (by decide) s
  | .null => exact hword (by decide) (by decide) (by decide)
  | .bool true => exact hword (by decide) (by decide) (by decide)
  | .bool false => exact hword (by decide) (by decide) (by decide)
  | .number n => exact .inl ⟨_, startsDocument_number n, rfl⟩
  | .string s =>
    have hquoted : ∀ {c : Char} {rest : List Char} {q : Page}, canStart c = true → c ≠ '-' →
        c ≠ '.' → Extends (mark {} (c :: rest)) q → q.Leads := fun hc hdash hdot hq =>
      .inr (BeginsDocument.longer (by rw [text_mark]; exact begins_of_ne hc hdash hdot _) hq.grows)
    have hextends := extends_string {} place.textColumn (Form.ofText s.toList place.inline) s.toList
    rw [value]
    cases hform : Form.ofText s.toList place.inline with
    | plain => exact .inl ⟨_, startsDocument_of_plain hform, rfl⟩
    | singleQuoted | doubleQuoted | literal =>
      rw [hform] at hextends
      exact hquoted (by decide) (by decide) (by decide) hextends
  | .sequence [] => exact hword (by decide) (by decide) (by decide)
  | .mapping [] => exact hword (by decide) (by decide) (by decide)
  | .sequence (item :: rest) => exact absurd rfl (hitems item rest)
  | .mapping (entry :: rest) => exact absurd rfl (hentries entry rest)

end Page

theorem begins_sequence (item : Value) (rest : List Value) :
    BeginsDocument (renderDocument (.sequence (item :: rest))) := by
  let dash : Page := (({} : Page).indentTo 0).openingMark '-'
  have hspace : Page.SpaceFollows dash (dash.value ⟨some 0, false, false⟩ item) :=
    Page.spaceFollows_value rfl _ item
  have hvalue : Page.value {} {} (.sequence (item :: rest)) =
      (dash.value ⟨some 0, false, false⟩ item).items 0 rest := by
    rw [Page.value]
    · rw [Page.items]
      rfl
    · exact List.cons_ne_nil item rest
  obtain ⟨c, hc, hsuffix⟩ :=
    hspace.trans ((Page.extends_start (Page.extends_items _ 0 rest)).trans
      (Page.extends_indentTo _ 0))
  rw [← hvalue] at hsuffix
  have hdash : c ≠ '-' := by
    rintro rfl
    exact absurd hc (by decide)
  exact (begins_of_dash hdash []).longer (List.reverse_prefix.mpr hsuffix)

theorem begins_mapping (key v : Value) (rest : List (Value × Value)) :
    BeginsDocument (renderDocument (.mapping ((key, v) :: rest))) := by
  let keyed : Page :=
    if isInlineKey key then (Page.value {} ⟨some 0, true, true⟩ key).mark [':']
    else
      let page := (({} : Page).openingMark '?').value ⟨some 0, true, false⟩ key
      (page.indentTo 0).openingMark ':'
  have hvalue : Page.value {} {} (.mapping ((key, v) :: rest)) =
      (keyed.value ⟨some 0, true, false⟩ v).entries 0 rest := by
    rw [Page.value]
    · rw [Page.entries]
      rfl
    · exact nofun
  have hextends : Page.Extends keyed
      ((Page.value {} {} (.mapping ((key, v) :: rest))).indentTo 0) := by
    rw [hvalue]
    refine .trans ?_ (Page.extends_indentTo _ 0)
    exact (Page.extends_value _ _ v).trans (Page.extends_start (Page.extends_entries _ 0 rest))
  refine BeginsDocument.longer ?_ hextends.grows
  by_cases hinline : isInlineKey key = true
  · rw [show keyed = _ from if_pos hinline]
    refine (Page.leads_value _ ?_ ?_).mark_colon <;>
    · rintro _ _ rfl
      simp [isInlineKey, inlineSize?] at hinline
  · rw [show keyed = _ from if_neg hinline]
    refine (begins_of_ne (c := '?') (by decide) (by decide) (by decide) []).longer ?_
    have hmark := ((Page.extends_value (({} : Page).openingMark '?') ⟨some 0, true, false⟩ key).trans
      (Page.extends_indentTo _ 0)).trans (Page.extends_openingMark _ ':')
    exact hmark.grows

/-- A rendering starts a document, whatever follows it. -/
theorem begins_renderDocument (doc : Value) : BeginsDocument (renderDocument doc) := by
  match doc with
  | .sequence (item :: rest) => exact begins_sequence item rest
  | .mapping ((key, v) :: rest) => exact begins_mapping key v rest
  | .null | .bool _ | .number _ | .string _ | .tagged _ _ | .sequence [] | .mapping [] =>
    exact Page.Leads.indentTo_zero (Page.leads_value {} (fun _ _ => nofun) fun _ _ => nofun)

end Yaml

end WorkflowRecipes
