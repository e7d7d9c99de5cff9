import FieldFilter.Proofs.Session.Identity

/-!
# The verdict is that of the view that counts

The verdict of a session is kept, and written in four places: at the end of every change, and when a
text is refused on loading, on leaving the JSON tab and on entering it. `verdict_coherent` says that
in every reachable session it is nevertheless what judging again would give.
-/

namespace FieldFilter.Session

/-- The text that is kept with the verdict. -/
def cached? (s : Session) : Option String :=
  match s.verdict with
  | .ok text => text
  | .error _ => none

/-- The kept verdict is up to date. -/
def Coherent (s : Session) : Prop := s.verdict = s.judge

theorem judge_eq (s : Session) : s.judge =
    if s.tab = .json ∧ Text.isBlank s.text = false then (judgeText s.fields s.text).1
    else (judgeOutline s.fields s.root).1 := by
  unfold judge judgeLogged textCounts
  cases s.tab <;> cases Text.isBlank s.text <;> rfl

/-- While the text does not count, the verdict is that of the outline. -/
theorem Coherent.outline {s : Session} (h : s.Coherent) (counts : s.textCounts = false) :
    s.verdict = (judgeOutline s.fields s.root).1 := by
  rw [h, judge, judgeLogged, counts]
  rfl

theorem textCounts_of_constructor {s : Session} (tab : s.tab = .constructor) :
    s.textCounts = false := by
  simp [textCounts, tab]

/-- The verdict on an outline is that of the check on its expression, if there is one. -/
theorem judgeOutline_cases (fields : List Field) (g : Group) :
    (g.expression? = none ∧ (judgeOutline fields g).1 = .ok none) ∨
      ∃ e, g.expression? = some e ∧
        ((Validation.check fields e = .ok () ∧ (judgeOutline fields g).1 = .ok (some e.compact)) ∨
          ∃ fault, Validation.check fields e = .error fault ∧
            (judgeOutline fields g).1 = .error fault) := by
  unfold judgeOutline
  cases g.expression? with
  | none => exact .inl ⟨rfl, rfl⟩
  | some e =>
    refine .inr ⟨e, rfl, ?_⟩
    dsimp only
    cases Validation.check fields e with
    | ok => exact .inl ⟨rfl, rfl⟩
    | error fault => exact .inr ⟨fault, rfl, rfl⟩

/-- The verdict on an outline is one on its expression. -/
theorem judgeOutline_congr (fields : List Field) {g g' : Group}
    (same : g'.expression? = g.expression?) : judgeOutline fields g' = judgeOutline fields g := by
  unfold judgeOutline
  rw [same]

theorem coherent_blank (fields : List Field) (preferences : Preferences) :
    (blank fields preferences).Coherent := rfl

theorem coherent_revalidate (s : Session) : s.revalidate.session.Coherent := by
  rw [revalidate_session]
  rfl

theorem judgeText_of_error {fields : List Field} {text : String} {fault : Fault}
    (h : Validation.checkText fields text = .error fault) :
    (judgeText fields text).1 = .error fault := by
  unfold judgeText
  rw [h]

/-- The fault that refuses a text is the one that judging finds in it. -/
theorem coherent_rejected (s : Session) {text : String} {fault : Fault}
    (filled : Text.isBlank text = false) (h : Validation.checkText s.fields text = .error fault) :
    Coherent { s with tab := .json, text := text, verdict := .error fault } := by
  unfold Coherent
  rw [judge_eq, if_pos ⟨rfl, filled⟩, judgeText_of_error h]

theorem step_coherent {s t : Session} (hs : s.Coherent) (h : Step s t) : t.Coherent := by
  cases h with
  | kept => exact hs
  | scrolled => exact hs
  | judged => exact coherent_revalidate _
  | rejected filled checked => exact coherent_rejected s filled checked

theorem Reachable.coherent {s : Session} (h : Reachable s) : s.Coherent :=
  h.of_step coherent_blank fun _ => step_coherent

/-- Judging a coherent session again changes nothing. -/
theorem Coherent.revalidate {s : Session} (h : s.Coherent) :
    s.revalidate.session = s ∧ s.revalidate.result = s.isValid := by
  rw [revalidate_session, revalidate_result, isValid, h]
  exact ⟨by rw [← h], rfl⟩

theorem isValid_iff (s : Session) : s.isValid = true ↔ s.fault? = none := by
  unfold isValid fault?
  cases s.verdict <;> simp [Except.isOk, Except.toBool]

theorem cached?_of_invalid {s : Session} (h : s.isValid = false) : s.cached? = none := by
  unfold isValid at h
  unfold cached?
  cases hv : s.verdict with
  | ok => rw [hv] at h; cases h
  | error => rfl

/-- In every reachable session the verdict is that of the text, if the JSON tab is open and the text
is not blank, and otherwise that of the outline. Judging again answers whether the session is valid
and changes nothing; a session is valid exactly if it has no fault, and keeps a text only then. -/
theorem verdict_coherent {s : Session} (h : Reachable s) :
    s.verdict =
        (if s.tab = .json ∧ Text.isBlank s.text = false then (judgeText s.fields s.text).1
        else (judgeOutline s.fields s.root).1) ∧
      s.revalidate.session = s ∧ s.revalidate.result = s.isValid ∧
      (s.isValid = true ↔ s.fault? = none) ∧ (s.isValid = false → s.cached? = none) := by
  have coherent := h.coherent
  obtain ⟨unchanged, answer⟩ := coherent.revalidate
  exact ⟨judge_eq s ▸ coherent, unchanged, answer, isValid_iff s, cached?_of_invalid⟩

/-- A session on a text that breaks off, after it was refused the constructor tab. -/
def brokenOff : Session :=
  ((start [] ⟨16, true, false⟩ (some "[")).session.perform (.setTab .constructor)).session

theorem verdict_coherent_brokenOff :
    Reachable brokenOff ∧ brokenOff.tab = .json ∧ brokenOff.verdict = .error .malformedText ∧
      brokenOff.revalidate.session = brokenOff ∧
      brokenOff.revalidate.result = brokenOff.isValid := by
  have reachable : Reachable brokenOff := .call (.setTab .constructor) trivial (.start ..)
  obtain ⟨-, unchanged, answer, -⟩ := verdict_coherent reachable
  exact ⟨reachable, rfl, rfl, unchanged, answer⟩

end FieldFilter.Session
