import FieldFilter.Proofs.Session.Texts

/-!
# Refused calls

A call that is refused leaves the session as it is (`refused_unchanged`). For a call that edits the
outline this is part of what it can do. When the constructor tab is refused, the fault of the text
is written again; this changes nothing, since the verdict of the session was this fault already.
Loading is the exception: a text that is no filter goes to the JSON tab, and nothing else changes.
-/

namespace FieldFilter.Session

theorem structural_refused {s : Session} (hs : s.Sound) {c : Call} (h : Structural c)
    (refused : Refuses (s.perform c).result) : (s.perform c).session = s := by
  cases perform_settled hs h with
  | refused gives => exact gives.session
  | edited gives done =>
    rw [gives.result] at refused
    exact absurd refused done

theorem updateCondition_refused {s : Session} {id : NodeId} {patch : Patch}
    (refused : (s.updateCondition id patch).result = false) :
    (s.updateCondition id patch).session = s := by
  obtain ⟨-, kept⟩ | ⟨_, -, updated⟩ := updateCondition_cases s id patch
  · exact kept.session
  · cases updated.result.symm.trans refused

/-- The constructor tab is refused for the fault that the session has. -/
theorem openConstructor_refused {s : Session} (coherent : s.Coherent) (json : s.tab = .json)
    (refused : s.openConstructor.result = false) : s.openConstructor.session = s := by
  cases blank : Text.isBlank s.text with
  | true =>
    rw [openConstructor, if_pos blank] at refused
    cases refused
  | false =>
    cases checked : Validation.checkText s.fields s.text with
    | ok e =>
      cases (openConstructor_of_ok blank checked).1.symm.trans refused
    | error fault =>
      have same : s.verdict = .error fault := by
        rw [coherent, judge_eq, if_pos ⟨json, blank⟩, judgeText_of_error checked]
      rw [(openConstructor_of_error blank checked).2, ← same]

theorem setTab_refused {s : Session} {tab : Tab} (coherent : s.Coherent)
    (refused : (s.setTab tab).result = false) : (s.setTab tab).session = s := by
  by_cases same : tab = s.tab
  · unfold setTab
    rw [if_pos same]
    rfl
  · rw [setTab_result same] at refused
    rw [setTab_session same]
    cases tab with
    | json => cases refused
    | constructor =>
      refine openConstructor_refused coherent ?_ refused
      cases h : s.tab with
      | json => rfl
      | constructor => exact absurd h.symm same

/-- A text that is not loaded goes to the JSON tab with its fault. -/
theorem load_refused {s : Session} {text : String} (refused : (s.load text).result = false) :
    ∃ fault, Validation.checkText s.fields text = .error fault ∧
      (s.load text).session = { s with tab := .json, text := text, verdict := .error fault } := by
  cases blank : Text.isBlank text with
  | true =>
    rw [load, if_pos blank] at refused
    cases refused
  | false =>
    cases checked : Validation.checkText s.fields text with
    | ok e => cases (load_of_ok blank checked).1.symm.trans refused
    | error fault => exact ⟨fault, rfl, (load_of_error blank checked).2⟩

theorem takeScrollTarget_none {s : Session} (nothing : s.scrollTarget = none) :
    s.takeScrollTarget.session = s := by
  rw [takeScrollTarget, ← nothing]

/-- In every reachable session, a call other than loading that is refused, with no node or with
`false`, leaves the session as it is. A text that is refused on loading goes to the JSON tab with
its fault, and nothing else changes. -/
theorem refused_unchanged {s : Session} (h : Reachable s) :
    (∀ c : Call, (∀ text, c ≠ .load text) → Refuses (s.perform c).result →
      (s.perform c).session = s) ∧
    ∀ text, Refuses (s.perform (.load text)).result →
      ∃ fault, Validation.checkText s.fields text = .error fault ∧
        (s.perform (.load text)).session =
          { s with tab := .json, text := text, verdict := .error fault } := by
  refine ⟨fun c other refused => ?_, fun text refused => load_refused refused⟩
  cases c with
  | updateCondition => exact updateCondition_refused refused
  | load text => exact absurd rfl (other text)
  | setTab => exact setTab_refused h.coherent refused
  | setText => exact refused.elim
  | revalidate => exact h.coherent.revalidate.1
  | takeScrollTarget => exact takeScrollTarget_none refused
  | _ => exact structural_refused h.sound trivial refused

/-- On a text that breaks off, the constructor tab is refused, and so are a group below one that is
not there, the deletion of the root and the text itself. -/
theorem refused_unchanged_brokenOff : Reachable brokenOff ∧
    Refuses (brokenOff.perform (.setTab .constructor)).result ∧
    (brokenOff.perform (.setTab .constructor)).session = brokenOff ∧
    Refuses (brokenOff.perform (.addGroup 7 .any)).result ∧
    (brokenOff.perform (.addGroup 7 .any)).session = brokenOff ∧
    Refuses (brokenOff.perform (.deleteGroup 1)).result ∧
    (brokenOff.perform (.deleteGroup 1)).session = brokenOff ∧
    Refuses (brokenOff.perform (.load "[")).result ∧
    (brokenOff.perform (.load "[")).session =
      { brokenOff with verdict := .error .malformedText } := by
  have reachable : Reachable brokenOff := .call (.setTab .constructor) trivial (.start ..)
  obtain ⟨unchanged, loading⟩ := refused_unchanged reachable
  have tab : Refuses (brokenOff.perform (.setTab .constructor)).result := rfl
  have add : Refuses (brokenOff.perform (.addGroup 7 .any)).result := rfl
  have delete : Refuses (brokenOff.perform (.deleteGroup 1)).result := rfl
  have load : Refuses (brokenOff.perform (.load "[")).result := rfl
  obtain ⟨fault, checked, session⟩ := loading "[" load
  have malformed : Validation.checkText brokenOff.fields "[" = .error .malformedText := rfl
  obtain rfl : fault = .malformedText := Except.error.inj (checked.symm.trans malformed)
  exact ⟨reachable, tab, unchanged _ nofun tab, add, unchanged _ nofun add, delete,
    unchanged _ nofun delete, load, session⟩

end FieldFilter.Session
