import FieldFilter.Proofs.Session.Texts

/-!
# Changing tabs

What counts changes with the tab. Leaving the JSON tab keeps the output, unless the text is blank:
then the outline counted until the switch, and the switch empties it (`leave_json`). Going to the
JSON tab with a valid filter and back keeps validity and output, as long as the text of the filter
is not longer than a text may be; if it is, the JSON tab is opened on an invalid text and cannot be
left (`tab_round_trip`). The way there and back assumes that what was written is read as the value
it was written from (`Json.read?_text`), which for floats takes the exact reading of `Raw.number?`.
-/

namespace FieldFilter.Session

open FieldFilter.Group

/-! ## Leaving the JSON tab -/

/-- A blank text leads to an empty outline. -/
theorem setTab_constructor_blank {s : Session} (json : s.tab = .json)
    (blank : Text.isBlank s.text = true) :
    (s.setTab .constructor).result = true ∧ (s.setTab .constructor).session.tab = .constructor ∧
      (s.setTab .constructor).session.root = .empty s.root.id .all ∧
      (s.setTab .constructor).session.verdict = .ok none := by
  rw [(setTab_of_json json).1, (setTab_of_json json).2, openConstructor, if_pos blank,
    Outcome.giving, construct_session]
  exact ⟨rfl, rfl, rfl, rfl⟩

theorem output_of_verdict {s t : Session} (h : s.verdict = t.verdict) : s.output = t.output :=
  (agrees_of_verdict h).output

/-- In a session whose outline counts there is no output exactly if no condition is complete. -/
theorem output_eq_none_iff {s : Session} (h : Reachable s) (counts : s.textCounts = false) :
    s.output = .ok none ↔ ∀ c ∈ s.root.leaves, ¬ c.Complete := by
  rw [output_eq_ok_iff, h.coherent.outline counts]
  refine ⟨judgeOutline_none h.sound.intact, fun incomplete => ?_⟩
  rw [judgeOutline, (expression?_eq_none_iff h.sound.intact).2 incomplete]

/-- When the JSON tab is left for the constructor tab, the output stays if the text is not blank. A
blank text empties the outline, so that there is no output afterwards; the output stays then exactly
if there was no complete condition in the outline that was left behind. -/
theorem leave_json {s : Session} (h : Reachable s) (json : s.tab = .json)
    (left : (s.setTab .constructor).result = true) :
    (Text.isBlank s.text = false → (s.setTab .constructor).session.output = s.output) ∧
    (Text.isBlank s.text = true →
      (s.setTab .constructor).session.root = .empty s.root.id .all ∧
      (s.setTab .constructor).session.output = .ok none ∧
      ((s.setTab .constructor).session.output = s.output ↔ ∀ c ∈ s.root.leaves, ¬ c.Complete)) := by
  constructor
  · intro filled
    obtain ⟨answer, outline⟩ := setTab_constructor h.coherent json filled
    obtain ⟨e, -, -, verdict⟩ := outline (answer.symm.trans left)
    exact output_of_verdict verdict
  · intro blank
    obtain ⟨-, -, root, verdict⟩ := setTab_constructor_blank json blank
    have nothing := output_eq_ok_iff.2 verdict
    have counts : s.textCounts = false := by simp [textCounts, blank]
    rw [nothing, ← output_eq_none_iff h counts]
    exact ⟨root, rfl, eq_comm⟩

/-- A session with a bare condition as its text on the JSON tab. -/
def bareTyped : Session :=
  (start [⟨"name", .string, none, none⟩] ⟨16, true, false⟩ none).session.typing
    "[\"has\",[\"get\",\"name\"]]"

theorem leave_json_bareTyped : Reachable bareTyped ∧ bareTyped.tab = .json ∧
    (bareTyped.setTab .constructor).result = true ∧
    (bareTyped.setTab .constructor).session.output = bareTyped.output ∧
    bareTyped.output.toOption = some (some "[\"all\",[\"has\",[\"get\",\"name\"]]]") := by
  have reachable : Reachable bareTyped := .typing (.start ..) _
  have json : bareTyped.tab = .json := by decide +kernel
  have left : (bareTyped.setTab .constructor).result = true := by decide +kernel
  obtain ⟨stays, -⟩ := leave_json reachable json left
  exact ⟨reachable, json, left, stays (by decide +kernel), by decide +kernel⟩

/-- A session on one condition whose text was deleted on the JSON tab. -/
def emptied : Session :=
  (start [⟨"name", .string, none, none⟩] ⟨16, true, false⟩
    (some "[\"all\",[\"has\",[\"get\",\"name\"]]]")).session.typing ""

/-- The filter that a blank text leaves in force is lost when the JSON tab is left. -/
theorem emptied_loses_output : Reachable emptied ∧ emptied.tab = .json ∧
    (emptied.setTab .constructor).result = true ∧
    (emptied.setTab .constructor).session.output ≠ emptied.output := by
  have before : emptied.output.toOption =
      some (some "[\"all\",[\"has\",[\"get\",\"name\"]]]") := by decide +kernel
  have after : (emptied.setTab .constructor).session.output.toOption = some none := by
    decide +kernel
  refine ⟨.typing (.start ..) "", by decide +kernel, by decide +kernel, fun same => ?_⟩
  rw [same, before] at after
  cases after

/-! ## Going to the JSON tab -/

theorem setTab_of_constructor {s : Session} (tab : s.tab = .constructor) :
    (s.setTab .json).result = true ∧ (s.setTab .json).session =
      { s with tab := .json, text := s.rendered,
               verdict := { s with tab := .json, text := s.rendered }.judge } := by
  have other : Tab.json ≠ s.tab := by simp [tab]
  refine ⟨setTab_result other, ?_⟩
  rw [setTab_session other]
  dsimp only
  rw [openJson, Outcome.giving, revalidate_session]

theorem filled_of_read? {text : String} {e : Json} (h : Json.read? text = some e) :
    Text.isBlank text = false := by
  by_contra blank
  rw [Json.read?_of_isBlank (by simpa using blank)] at h
  cases h

/-- The text that the JSON tab starts with means the expression of the outline, in either style. -/
theorem read?_rendered {s : Session} (values : s.Valued) {e : Json}
    (written : s.root.expression? = some e) (accepted : Validation.check s.fields e = .ok ()) :
    Json.read? s.rendered = some e := by
  have read (style : Style) : Json.read? (e.raw.text style) = some e :=
    Json.read?_text (proper_expression? s.root values e written)
      (Validation.nesting_of_check accepted) style
  unfold rendered
  rw [written]
  dsimp only
  split
  · exact read .pretty
  · exact read .compact

/-- The text of a valid outline gets the verdict of the outline, unless it is too long. -/
theorem judgeText_rendered {s : Session} (values : s.Valued) {e : Json}
    (written : s.root.expression? = some e) (accepted : Validation.check s.fields e = .ok ()) :
    (judgeText s.fields s.rendered).1 = if s.rendered.utf8ByteSize ≤ Limits.textBytes then
        .ok (some e.compact)
      else .error (.textTooLong s.rendered.utf8ByteSize Limits.textBytes) := by
  split
  · rename_i short
    have checked : Validation.checkText s.fields s.rendered = .ok e :=
      Validation.checkText_iff.2 ⟨short, read?_rendered values written accepted, accepted⟩
    rw [judgeText_of_ok checked 1,
      Reading.expression?_of_canonical (canonical_expression? written)]
    rfl
  · rename_i long
    exact judgeText_of_error (if_pos (Nat.lt_of_not_le long))

/-- A valid outline has no expression, or one that is accepted. -/
theorem verdict_cases {s : Session} (h : Reachable s) (tab : s.tab = .constructor)
    (valid : s.isValid = true) : s.root.expression? = none ∧ s.verdict = .ok none ∨
      ∃ e, s.root.expression? = some e ∧ Validation.check s.fields e = .ok () ∧
        s.verdict = .ok (some e.compact) := by
  rw [isValid, h.coherent.outline (textCounts_of_constructor tab)] at valid
  rw [h.coherent.outline (textCounts_of_constructor tab)]
  obtain nothing | ⟨e, written, accepted | ⟨fault, -, verdict⟩⟩ :=
    judgeOutline_cases s.fields s.root
  · exact .inl nothing
  · exact .inr ⟨e, written, accepted⟩
  · rw [verdict] at valid
    cases valid

/-- The text of a valid outline is empty, if there is no output, or it is not blank and gets the
verdict of the outline, unless it is too long. -/
theorem rendered_cases {s : Session} (h : Reachable s) (tab : s.tab = .constructor)
    (valid : s.isValid = true) : s.rendered = "" ∧ s.verdict = .ok none ∨
      Text.isBlank s.rendered = false ∧ (judgeText s.fields s.rendered).1 =
        if s.rendered.utf8ByteSize ≤ Limits.textBytes then s.verdict
        else .error (.textTooLong s.rendered.utf8ByteSize Limits.textBytes) := by
  obtain ⟨nothing, verdict⟩ | ⟨e, written, accepted, verdict⟩ := verdict_cases h tab valid
  · have empty : s.rendered = "" := by rw [rendered, nothing]
    exact .inl ⟨empty, verdict⟩
  · have filled := filled_of_read? (read?_rendered h.valued written accepted)
    rw [verdict]
    exact .inr ⟨filled, judgeText_rendered h.valued written accepted⟩

/-- Opened on a valid outline the JSON tab keeps the verdict, unless the text is too long. -/
theorem setTab_json_verdict {s : Session} (h : Reachable s) (tab : s.tab = .constructor)
    (valid : s.isValid = true) : (s.setTab .json).session.verdict =
      if s.rendered.utf8ByteSize ≤ Limits.textBytes then s.verdict
      else .error (.textTooLong s.rendered.utf8ByteSize Limits.textBytes) := by
  have outline := h.coherent.outline (textCounts_of_constructor tab)
  rw [(setTab_of_constructor tab).2, judge_eq]
  obtain ⟨empty, -⟩ | ⟨filled, judged⟩ := rendered_cases h tab valid
  · have blank : Text.isBlank "" = true := by decide
    have short : "".utf8ByteSize ≤ Limits.textBytes := by decide
    rw [empty, if_neg (by simp [blank]), if_pos short, outline]
  · rw [if_pos ⟨rfl, filled⟩]
    exact judged

/-- What a valid session has on the JSON tab, the constructor tab takes over, if a blank text stands
for no output. -/
theorem setTab_constructor_valid {s : Session} (h : Reachable s) (json : s.tab = .json)
    (valid : s.isValid = true) (nothing : Text.isBlank s.text = true → s.verdict = .ok none) :
    (s.setTab .constructor).result = true ∧ (s.setTab .constructor).session.tab = .constructor ∧
      (s.setTab .constructor).session.verdict = s.verdict := by
  cases blank : Text.isBlank s.text with
  | true =>
    obtain ⟨answer, tab, -, verdict⟩ := setTab_constructor_blank json blank
    exact ⟨answer, tab, verdict.trans (nothing blank).symm⟩
  | false =>
    obtain ⟨answer, outline⟩ := setTab_constructor h.coherent json blank
    obtain ⟨e, -, session, verdict⟩ := outline valid
    exact ⟨answer.trans valid, by rw [session]; rfl, verdict⟩

/-! ## Sessions on one long value -/

/-- The condition that compares the field `a` with a value. -/
def sameAs (value : String) : Json := Expression.condition .equal "a" (some (.str value))

/-- The text of `sameAs value`, if the value needs no escapes. -/
def sameAsText (value : String) : String := "[\"==\",[\"get\",\"a\"],\"" ++ value ++ "\"]"

theorem write_sameAs {value : String} (plain : ∀ c ∈ value.toList, Glyph.ofChar c = .plain c)
    (depth : Nat) (out : String) :
    (sameAs value).raw.write .compact depth out = out ++ sameAsText value := by
  have raw : (sameAs value).raw = .array [.string (Glyph.encode "=="),
    .array [.string (Glyph.encode "get"), .string (Glyph.encode "a")],
    .string (Glyph.encode value)] := rfl
  have equal := Raw.writeString_plain (s := "==") (by simp [Glyph.ofChar])
  have get := Raw.writeString_plain (s := "get") (by simp [Glyph.ofChar])
  have name := Raw.writeString_plain (s := "a") (by simp [Glyph.ofChar])
  unfold sameAsText
  rw [raw]
  simp only [Raw.write, Raw.writeRest, Raw.newLine, Raw.writeString_plain plain, equal, get, name]
  apply String.toList_inj.1
  simp

/-- `n` times the letter `a`. -/
def letters (n : Nat) : String := String.ofList (List.replicate n 'a')

theorem letters_plain (n : Nat) : ∀ c ∈ (letters n).toList, Glyph.ofChar c = .plain c := by
  intro c hc
  obtain ⟨-, rfl⟩ := List.mem_replicate.1 (String.toList_ofList ▸ hc)
  rfl

theorem letters_size (n : Nat) : (letters n).utf8ByteSize = n := by
  induction n with
  | zero => rfl
  | succ n ih =>
    have first : letters (n + 1) = "a" ++ letters n := by
      apply String.toList_inj.1
      simp [letters, List.replicate_succ]
    rw [first, String.utf8ByteSize_append, ih, Nat.add_comm]
    rfl

theorem sameAsText_size (n : Nat) : (sameAsText (letters n)).utf8ByteSize = n + 21 := by
  have before : "[\"==\",[\"get\",\"a\"],\"".utf8ByteSize = 19 := rfl
  have after : "\"]".utf8ByteSize = 2 := rfl
  unfold sameAsText
  rw [String.utf8ByteSize_append, String.utf8ByteSize_append, before, after, letters_size,
    Nat.add_right_comm, Nat.add_comm]

theorem sameAs_proper (value : String) : (sameAs value).Proper ∧ (sameAs value).nesting = 2 := by
  have items : sameAs value = .arr [.str "==", .arr [.str "get", .str "a"], .str value] := rfl
  rw [items]
  simp [Json.Proper, Json.ProperAll, Json.nesting, Json.nestingAll]

theorem read?_sameAsText (n : Nat) :
    Json.read? (sameAsText (letters n)) = some (sameAs (letters n)) := by
  have written : (sameAs (letters n)).raw.text .compact = sameAsText (letters n) := by
    rw [Raw.text, write_sameAs (letters_plain n), String.empty_append]
  obtain ⟨proper, nesting⟩ := sameAs_proper (letters n)
  rw [← written]
  exact Json.read?_text proper (nesting ▸ by decide) .compact

/-- The session on a condition of that kind, in compact style. -/
def onSameAs (value : String) : Session :=
  (blank [⟨"a", .string, none, none⟩] ⟨16, false, false⟩).onOutline (sameAs value)

/-- The outline puts the condition into a group. -/
theorem onSameAs_rendered (value : String) : (onSameAs value).rendered =
    ((sameAs value).raw.write .compact 1 "[\"all\",").push ']' := by
  have written : (onSameAs value).root.expression? =
      some (Expression.group .all [sameAs value]) := rfl
  have text (e : Json) : (Expression.group .all [e]).compact =
      (e.raw.write .compact 1 "[\"all\",").push ']' := rfl
  unfold rendered
  rw [written]
  exact text (sameAs value)

theorem onSameAs_valid (value : String) : (onSameAs value).tab = .constructor ∧
    (onSameAs value).isValid = true := ⟨rfl, rfl⟩

/-- A session that starts with a bare condition, as a text of `n + 21` bytes. -/
def lengthy (n : Nat) : Session :=
  (start [⟨"a", .string, none, none⟩] ⟨16, false, false⟩ (some (sameAsText (letters n)))).session

theorem lengthy_session {n : Nat} (short : n + 21 ≤ Limits.textBytes) :
    lengthy n = onSameAs (letters n) := by
  have read := read?_sameAsText n
  have filled := filled_of_read? read
  have size : (sameAsText (letters n)).utf8ByteSize ≤ Limits.textBytes :=
    (sameAsText_size n).symm ▸ short
  unfold lengthy
  rw [start_filled _ _ filled]
  exact (load_of_ok filled (Validation.checkText_iff.2 ⟨size, read, rfl⟩)).2

theorem lengthy_rendered {n : Nat} (short : n + 21 ≤ Limits.textBytes) :
    (lengthy n).rendered.utf8ByteSize = n + 29 := by
  have before : "[\"all\",".utf8ByteSize = 7 := rfl
  have after : ']'.utf8Size = 1 := rfl
  rw [lengthy_session short, onSameAs_rendered, write_sameAs (letters_plain _),
    String.utf8ByteSize_push, String.utf8ByteSize_append, sameAsText_size, before, after]
  omega

theorem lengthy_valid {n : Nat} (short : n + 21 ≤ Limits.textBytes) :
    Reachable (lengthy n) ∧ (lengthy n).tab = .constructor ∧ (lengthy n).isValid = true := by
  have reachable : Reachable (lengthy n) := .start _ _ _
  obtain ⟨tab, valid⟩ := onSameAs_valid (letters n)
  rw [lengthy_session short] at reachable ⊢
  exact ⟨reachable, tab, valid⟩

theorem lengthy_refused {n : Nat} (short : n + 21 ≤ Limits.textBytes)
    (long : Limits.textBytes < n + 29) : ((lengthy n).setTab .json).session.isValid = false := by
  obtain ⟨reachable, tab, valid⟩ := lengthy_valid short
  rw [isValid, setTab_json_verdict reachable tab valid, lengthy_rendered short,
    if_neg (Nat.not_le.2 long)]
  rfl

/-! ## There and back -/

/-- Going to the JSON tab always succeeds. If the filter is valid and its text, in the style of the
preferences, is not too long, validity and output stay, there and on the way back to the constructor
tab. If it is too long, the session is invalid for just that reason, and the way back is refused.
Assumed is that a text that was written is read as the value it was written from. -/
theorem tab_round_trip {s : Session} (h : Reachable s) (tab : s.tab = .constructor)
    (valid : s.isValid = true) :
    (s.setTab .json).result = true ∧
    (s.rendered.utf8ByteSize ≤ Limits.textBytes →
      (s.setTab .json).session.isValid = true ∧ (s.setTab .json).session.output = s.output ∧
      ((s.setTab .json).session.setTab .constructor).result = true ∧
      ((s.setTab .json).session.setTab .constructor).session.tab = .constructor ∧
      ((s.setTab .json).session.setTab .constructor).session.isValid = true ∧
      ((s.setTab .json).session.setTab .constructor).session.output = s.output) ∧
    (Limits.textBytes < s.rendered.utf8ByteSize →
      (s.setTab .json).session.fault? =
        some (.textTooLong s.rendered.utf8ByteSize Limits.textBytes) ∧
      ((s.setTab .json).session.setTab .constructor).result = false) := by
  obtain ⟨opened, session⟩ := setTab_of_constructor tab
  have reachable : Reachable (s.setTab .json).session := .call (.setTab .json) trivial h
  have verdict := setTab_json_verdict h tab valid
  have json : (s.setTab .json).session.tab = .json := by rw [session]
  have pending : (s.setTab .json).session.text = s.rendered := by rw [session]
  refine ⟨opened, fun short => ?_, fun long => ?_⟩
  · rw [if_pos short] at verdict
    have there := agrees_of_verdict verdict
    have nothing : Text.isBlank (s.setTab .json).session.text = true →
        (s.setTab .json).session.verdict = .ok none := by
      intro blank
      obtain ⟨-, nothing⟩ | ⟨filled, -⟩ := rendered_cases h tab valid
      · exact verdict.trans nothing
      · rw [pending, filled] at blank
        cases blank
    obtain ⟨answer, constructor, back⟩ :=
      setTab_constructor_valid reachable json (there.isValid.trans valid) nothing
    have again := agrees_of_verdict (back.trans verdict)
    exact ⟨there.isValid.trans valid, there.output, answer, constructor,
      again.isValid.trans valid, again.output⟩
  · rw [if_neg (Nat.not_le.2 long)] at verdict
    have filled : Text.isBlank (s.setTab .json).session.text = false := by
      obtain ⟨empty, -⟩ | ⟨filled, -⟩ := rendered_cases h tab valid
      · rw [empty] at long
        exact absurd long (by decide)
      · rw [pending]
        exact filled
    refine ⟨by rw [fault?, verdict], ?_⟩
    rw [(setTab_constructor reachable.coherent json filled).1, isValid, verdict]
    rfl

/-- A short filter comes back as it was; the longest bare condition is too long in its group. -/
theorem tab_round_trip_lengthy : Reachable (lengthy 1) ∧ (lengthy 1).tab = .constructor ∧
    (lengthy 1).isValid = true ∧ (lengthy 1).rendered.utf8ByteSize ≤ Limits.textBytes ∧
    ((lengthy 1).setTab .json).session.output = (lengthy 1).output ∧
    (((lengthy 1).setTab .json).session.setTab .constructor).session.output =
      (lengthy 1).output ∧
    Limits.textBytes < (lengthy 1048555).rendered.utf8ByteSize ∧
    (((lengthy 1048555).setTab .json).session.setTab .constructor).result = false := by
  have short : (lengthy 1).rendered.utf8ByteSize ≤ Limits.textBytes :=
    (lengthy_rendered (n := 1) (by decide)).symm ▸ by decide
  have long : Limits.textBytes < (lengthy 1048555).rendered.utf8ByteSize :=
    (lengthy_rendered (n := 1048555) (by decide)).symm ▸ by decide
  obtain ⟨reachable, tab, valid⟩ := lengthy_valid (n := 1) (by decide)
  obtain ⟨-, stays, -⟩ := tab_round_trip reachable tab valid
  obtain ⟨-, there, -, -, -, back⟩ := stays short
  obtain ⟨reachable', tab', valid'⟩ := lengthy_valid (n := 1048555) (by decide)
  obtain ⟨-, -, fails⟩ := tab_round_trip reachable' tab' valid'
  exact ⟨reachable, tab, valid, short, there, back, long, (fails long).2⟩

/-- With a text at the limit a session is valid, and the JSON tab opens on a text that is not. -/
theorem lengthy_at_limit : Reachable (lengthy 1048555) ∧ (lengthy 1048555).tab = .constructor ∧
    (lengthy 1048555).isValid = true ∧
    ((lengthy 1048555).setTab .json).session.isValid = false := by
  obtain ⟨reachable, tab, valid⟩ := lengthy_valid (n := 1048555) (by decide)
  exact ⟨reachable, tab, valid, lengthy_refused (by decide) (by decide)⟩

end FieldFilter.Session
