import FieldFilter.Proofs.Session.Tabs

/-!
# Loading what was given out

The text that a session gives out is a filter in its plainest form. If it is not longer than a text
may be, it passes the check when it comes back in (`Published.checked`), and the outline that is
read from it is written as the same text again (`load_published`). So it does not matter whether the
text was judged from an outline or from another text: loaded into any session over the same fields,
or given to a new one, it is given out as it is (`output_reloads`).
-/

namespace FieldFilter.Session

/-- The session is valid on the constructor tab and gives out the text. -/
structure Shows (s : Session) (text : String) : Prop where
  tab : s.tab = .constructor
  isValid : s.isValid = true
  output : s.output = .ok (some text)

variable {s : Session} {fields : List Field} {text : String} {e : Json}

theorem shows_of_verdict (tab : s.tab = .constructor) (h : s.verdict = .ok (some text)) :
    s.Shows text where
  tab := tab
  isValid := by
    rw [isValid, h]
    rfl
  output := output_eq_ok_iff.2 h

/-- A text that was given out passes the check, unless it is too long. -/
theorem Published.checked (h : Published fields text e)
    (short : text.utf8ByteSize ≤ Limits.textBytes) : Validation.checkText fields text = .ok e :=
  Validation.checkText_iff.2 ⟨short, h.read, h.accepted⟩

/-- What is written of the outline of its filter is the text itself. -/
theorem Published.judged (h : Published fields text e)
    (short : text.utf8ByteSize ≤ Limits.textBytes) :
    (judgeText fields text).1 = .ok (some text) := by
  rw [judgeText_of_ok (h.checked short) 1, Reading.expression?_of_canonical h.canonical,
    h.rendered]
  rfl

theorem load_published (h : Published s.fields text e)
    (short : text.utf8ByteSize ≤ Limits.textBytes) :
    (s.load text).result = true ∧ (s.load text).session.Shows text := by
  have checked := h.checked short
  obtain ⟨result, session⟩ := load_of_ok (filled_of_read? h.read) checked
  refine ⟨result, ?_⟩
  rw [session]
  exact shows_of_verdict rfl ((s.onOutline_verdict checked).trans (h.judged short))

/-- What a session gives out on either tab, and is not too long for a text, is given out again by
every session over the same fields that loads it, and by every new one that starts with it. -/
theorem output_reloads (h : Reachable s) (given : s.output = .ok (some text))
    (short : text.utf8ByteSize ≤ Limits.textBytes) :
    (∀ preferences, (start s.fields preferences (some text)).session.Shows text) ∧
      ∀ u : Session, u.fields = s.fields →
        (u.load text).result = true ∧ (u.load text).session.Shows text := by
  obtain ⟨e, published⟩ := published_of_verdict h (output_eq_ok_iff.1 given)
  refine ⟨fun preferences => ?_, fun u same => ?_⟩
  · rw [start_filled s.fields preferences (filled_of_read? published.read)]
    -- what a session gives out does not depend on its preferences
    have other : Published (blank s.fields preferences).fields text e := published
    exact (load_published other short).2
  · rw [← same] at published
    exact load_published published short

/-- The text of a bare condition is not the one that is given out for it, but that one comes back,
also into the session that still holds the other text. -/
theorem output_reloads_bareTyped :
    let text := "[\"all\",[\"has\",[\"get\",\"name\"]]]"
    Reachable bareTyped ∧ bareTyped.tab = .json ∧ bareTyped.output = .ok (some text) ∧
      text.utf8ByteSize ≤ Limits.textBytes ∧
      (start bareTyped.fields ⟨3, false, true⟩ (some text)).session.Shows text ∧
      (bareTyped.load text).session.Shows text := by
  intro text
  have reachable : Reachable bareTyped := .typing (.start ..) _
  have shown : bareTyped.output.toOption = some (some text) := by decide +kernel
  have given : bareTyped.output = .ok (some text) := by
    cases output : bareTyped.output with
    | error => simp [output, Except.toOption] at shown
    | ok => simpa [output, Except.toOption] using shown
  have short : text.utf8ByteSize ≤ Limits.textBytes := by decide +kernel
  obtain ⟨started, loaded⟩ := output_reloads reachable given short
  exact ⟨reachable, by decide +kernel, given, short, started ⟨3, false, true⟩,
    (loaded bareTyped rfl).2⟩

end FieldFilter.Session
