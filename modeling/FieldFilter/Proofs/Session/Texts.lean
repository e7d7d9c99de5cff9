import FieldFilter.Proofs.Outline.Renumbered
import FieldFilter.Proofs.Session.Output

/-!
# Ways to bring a text in

A text comes into a session by loading it, by typing it on the JSON tab, or as the start of a new
session. The first and the last judge the outline that is read from it, the second judges the text.
Each of the three comes to the verdict on the text (`load_verdict`, `setText_verdict`,
`setTab_constructor`), so the sessions say the same of their filter, and what the constructor tab
shows in the end is one outline but for the ids below its root (`text_routes_agree`).
-/

namespace FieldFilter.Session

open FieldFilter.Group

/-! ## Verdicts on a text -/

theorem judgeText_of_ok {fields : List Field} {text : String} {e : Json}
    (h : Validation.checkText fields text = .ok e) (n : NodeId) : (judgeText fields text).1 =
      .ok ((Reading.ofExpression e n).root.expression?.map Json.compact) := by
  unfold judgeText
  rw [h]
  dsimp only
  rw [Reading.expression?_ofExpression, Reading.expression?_ofExpression]

/-- The verdict on a text is the one on the outline that is read from it. -/
theorem judgeOutline_ofExpression {fields : List Field} {text : String} {e : Json}
    (h : Validation.checkText fields text = .ok e) (n : NodeId) :
    (judgeOutline fields (Reading.ofExpression e n).root).1 = (judgeText fields text).1 := by
  obtain ⟨-, -, accepted⟩ := Validation.checkText_iff.1 h
  rw [judgeText_of_ok h n]
  unfold judgeOutline
  cases written : (Reading.ofExpression e n).root.expression? with
  | none => rfl
  | some v =>
    dsimp only
    rw [Validation.check_normal accepted written]
    rfl

theorem judgeOutline_withId (fields : List Field) (g : Group) (id : NodeId) :
    judgeOutline fields { g with id := id } = judgeOutline fields g :=
  judgeOutline_congr fields (expression?_withId g id)

/-! ## The outline of a text -/

/-- The session on the outline of an expression, with the constructor tab open. -/
def onOutline (s : Session) (e : Json) : Session where
  fields := s.fields
  preferences := s.preferences
  next := (Reading.ofExpression e s.next).next
  root := { (Reading.ofExpression e s.next).root with id := s.root.id }
  tab := .constructor
  text := ""
  verdict := (judgeOutline s.fields (Reading.ofExpression e s.next).root).1
  scrollTarget := none

theorem construct_session (s : Session) (root : Group) : (s.construct root).session =
    { s with root := { root with id := s.root.id }, tab := .constructor, text := "",
             verdict := (judgeOutline s.fields root).1, scrollTarget := none } := by
  have outline := judgeOutline_withId s.fields root s.root.id
  rw [construct, revalidate_session, judge_eq, if_neg (fun h => nomatch h.1)]
  simp only [replaceRoot, outline]

theorem onOutline_verdict (s : Session) {text : String} {e : Json}
    (h : Validation.checkText s.fields text = .ok e) :
    (s.onOutline e).verdict = (judgeText s.fields text).1 :=
  judgeOutline_ofExpression h s.next

theorem judgeText_isOk {fields : List Field} {text : String} {e : Json}
    (h : Validation.checkText fields text = .ok e) : (judgeText fields text).1.isOk = true := by
  rw [judgeText_of_ok h 1]
  rfl

/-! ## Loading -/

theorem load_of_ok {s : Session} {text : String} {e : Json} (filled : Text.isBlank text = false)
    (h : Validation.checkText s.fields text = .ok e) :
    (s.load text).result = true ∧ (s.load text).session = s.onOutline e := by
  unfold load
  rw [if_neg (by simp [filled]), h]
  exact ⟨rfl, construct_session _ _⟩

theorem load_of_error {s : Session} {text : String} {fault : Fault}
    (filled : Text.isBlank text = false) (h : Validation.checkText s.fields text = .error fault) :
    (s.load text).result = false ∧
      (s.load text).session = { s with tab := .json, text := text, verdict := .error fault } := by
  unfold load
  rw [if_neg (by simp [filled]), h]
  exact ⟨rfl, rfl⟩

/-- Loading a text comes to the verdict on it, whether the text is a filter or not. It is one
exactly if the load succeeds, and then the constructor tab is open. -/
theorem load_verdict (s : Session) {text : String} (filled : Text.isBlank text = false) :
    (s.load text).session.verdict = (judgeText s.fields text).1 ∧
      (s.load text).result = (s.load text).session.isValid ∧
      ((s.load text).session.tab = .constructor ↔ (s.load text).session.isValid = true) := by
  cases checked : Validation.checkText s.fields text with
  | ok e =>
    obtain ⟨result, session⟩ := load_of_ok filled checked
    have verdict := s.onOutline_verdict checked
    have valid : (s.onOutline e).isValid = true := by
      rw [isValid, verdict]
      exact judgeText_isOk checked
    rw [session, result, valid]
    exact ⟨verdict, rfl, iff_of_true rfl rfl⟩
  | error fault =>
    obtain ⟨result, session⟩ := load_of_error filled checked
    rw [session, result]
    refine ⟨(judgeText_of_error checked).symm, rfl, ?_⟩
    constructor
    · intro tab
      cases tab
    · intro valid
      cases valid

theorem start_filled (fields : List Field) (preferences : Preferences) {text : String}
    (filled : Text.isBlank text = false) : (start fields preferences (some text)).session =
      ((blank fields preferences).load text).session := by
  unfold start
  dsimp only
  rw [if_neg (by simp [filled])]
  rfl

/-! ## The JSON tab -/

theorem setTab_result {s : Session} {tab : Tab} (other : tab ≠ s.tab) :
    (s.setTab tab).result =
      (match tab with | .json => s.openJson | .constructor => s.openConstructor).result := by
  unfold setTab
  rw [if_neg other]
  cases tab <;> dsimp only <;> split <;> rfl

/-- The constructor tab is opened from the JSON tab. -/
theorem setTab_of_json {s : Session} (json : s.tab = .json) :
    (s.setTab .constructor).result = s.openConstructor.result ∧
      (s.setTab .constructor).session = s.openConstructor.session := by
  have other : Tab.constructor ≠ s.tab := by simp [json]
  exact ⟨setTab_result other, setTab_session other⟩

theorem setText_verdict {s : Session} (json : s.tab = .json) {text : String}
    (filled : Text.isBlank text = false) :
    (s.setText text).session.verdict = (judgeText s.fields text).1 := by
  change ({ s with text := text } : Session).revalidate.session.verdict = _
  rw [revalidate_session, judge_eq]
  exact if_pos ⟨json, filled⟩

theorem openConstructor_of_ok {s : Session} {e : Json} (filled : Text.isBlank s.text = false)
    (h : Validation.checkText s.fields s.text = .ok e) :
    s.openConstructor.result = true ∧ s.openConstructor.session = s.onOutline e := by
  unfold openConstructor
  rw [if_neg (by simp [filled]), h]
  exact ⟨rfl, construct_session _ _⟩

theorem openConstructor_of_error {s : Session} {fault : Fault}
    (filled : Text.isBlank s.text = false)
    (h : Validation.checkText s.fields s.text = .error fault) :
    s.openConstructor.result = false ∧
      s.openConstructor.session = { s with verdict := .error fault } := by
  unfold openConstructor
  rw [if_neg (by simp [filled]), h]
  exact ⟨rfl, rfl⟩

/-- From a text that is not blank the constructor tab opens exactly if the session is valid, on the
outline of the text and with the same verdict. -/
theorem setTab_constructor {s : Session} (h : s.Coherent) (json : s.tab = .json)
    (filled : Text.isBlank s.text = false) :
    (s.setTab .constructor).result = s.isValid ∧
      (s.isValid = true → ∃ e, Validation.checkText s.fields s.text = .ok e ∧
        (s.setTab .constructor).session = s.onOutline e ∧
        (s.setTab .constructor).session.verdict = s.verdict) := by
  have verdict : s.verdict = (judgeText s.fields s.text).1 := by
    rw [h, judge_eq, if_pos ⟨json, filled⟩]
  rw [(setTab_of_json json).1, (setTab_of_json json).2]
  cases checked : Validation.checkText s.fields s.text with
  | ok e =>
    obtain ⟨result, session⟩ := openConstructor_of_ok filled checked
    have valid : s.isValid = true := by
      rw [isValid, verdict]
      exact judgeText_isOk checked
    refine ⟨result.trans valid.symm, fun _ => ⟨e, rfl, session, ?_⟩⟩
    rw [session, s.onOutline_verdict checked, verdict]
  | error fault =>
    obtain ⟨result, -⟩ := openConstructor_of_error filled checked
    have invalid : s.isValid = false := by
      rw [isValid, verdict, judgeText_of_error checked]
      rfl
    exact ⟨result.trans invalid.symm, fun valid => by rw [invalid] at valid; cases valid⟩

/-! ## The three ways -/

/-- The sessions say the same of their filter. -/
structure Agrees (s t : Session) : Prop where
  isValid : s.isValid = t.isValid
  fault : s.fault? = t.fault?
  output : s.output = t.output

theorem agrees_of_verdict {s t : Session} (h : s.verdict = t.verdict) : s.Agrees t where
  isValid := by rw [isValid, isValid, h]
  fault := by rw [fault?, fault?, h]
  output := by rw [output, output, h]

/-- The session once a text was typed on the JSON tab, which is opened for it if need be. -/
def typing (s : Session) (text : String) : Session :=
  ((s.setTab .json).session.setText text).session

/-- The session once the typed text was taken to the constructor tab. -/
def taking (s : Session) (text : String) : Session := ((s.typing text).setTab .constructor).session

/-- Going to the JSON tab changes what counts, but neither outline nor ids. -/
theorem setTab_json (s : Session) : (s.setTab .json).session.tab = .json ∧
    (s.setTab .json).session.fields = s.fields ∧ (s.setTab .json).session.next = s.next ∧
    (s.setTab .json).session.root = s.root := by
  by_cases same : Tab.json = s.tab
  · unfold setTab
    rw [if_pos same]
    exact ⟨same.symm, rfl, rfl, rfl⟩
  · rw [setTab_session same]
    rw [openJson, Outcome.giving, revalidate_session]
    exact ⟨rfl, rfl, rfl, rfl⟩

theorem Reachable.typing {s : Session} (h : Reachable s) (text : String) :
    Reachable (s.typing text) :=
  .call (.setText text) trivial (.call (.setTab .json) trivial h)

theorem typing_parts (s : Session) (text : String) : (s.typing text).tab = .json ∧
    (s.typing text).text = text ∧ (s.typing text).fields = s.fields ∧
    (s.typing text).next = s.next ∧ (s.typing text).root = s.root := by
  obtain ⟨tab, fields, next, root⟩ := s.setTab_json
  unfold Session.typing setText
  rw [Outcome.giving, revalidate_session]
  exact ⟨tab, rfl, fields, next, root⟩

/-- The root of a session has the id that the first session gave it. -/
theorem Reachable.root_id {s : Session} (h : Reachable s) : s.root.id = 1 := by
  refine h.of_step (P := fun s => s.root.id = 1) (fun _ _ => rfl) ?_
  intro s t sound root step
  exact (step_sound sound step).2.root.trans root

/-- Outlines that are read from one expression under root id 1 resemble each other, whichever ids
are drawn for them, if those come after the root's. -/
theorem resembles_ofExpression (e : Json) {n : NodeId} (later : 2 ≤ n) :
    { (Reading.ofExpression e 2).root with id := 1 }.Resembles
      { (Reading.ofExpression e n).root with id := 1 } := by
  obtain ⟨k, rfl⟩ := Nat.exists_eq_add_of_le later
  -- reading from `2 + k` on shifts every id by `k`, except that the root has id 1 in both
  let f (id : Nat) : Nat := if id = 1 then 1 else id + k
  have shifted {id : Nat} (h : 2 ≤ id) : f id = id + k := if_neg (by omega)
  have high {id : Nat} (h : 2 ≤ id) : f id ≠ 1 := by
    rw [shifted h]
    omega
  have moved : (Reading.ofExpression e (2 + k)).root =
      (Reading.ofExpression e 2).root.renumber f := by
    rw [← shifted (Nat.le_refl 2)]
    refine Reading.ofExpression_renumber e fun x hx => ?_
    rw [shifted hx, shifted (Nat.le_succ_of_le hx), Nat.add_right_comm]
  have drawn : ∀ id ∈ { (Reading.ofExpression e 2).root with id := 1 }.ids, id = 1 ∨ 2 ≤ id := by
    intro id hid
    rw [ids_rename] at hid
    refine (List.mem_cons.1 hid).imp_right fun hid => ?_
    obtain ⟨l, -, row⟩ := Reading.ofExpression_ids e 2
    exact (List.mem_range'_1.1 (row.mem_iff.1 (List.mem_of_mem_tail hid))).1
  refine ⟨f, rfl, fun a ha b hb same => ?_, ?_⟩
  · obtain rfl | ha := drawn a ha <;> obtain rfl | hb := drawn b hb
    · rfl
    · exact absurd same.symm (high hb)
    · exact absurd same (high ha)
    · rw [shifted ha, shifted hb] at same
      exact Nat.add_right_cancel same
  · rw [renumber_withId, moved]
    rfl

/-- A text that is not blank leads to one validity, one fault and one output, whether it is loaded,
typed on the JSON tab or given to a new session over the same fields. A load succeeds exactly if the
session is valid then; a load and a start end on the constructor tab exactly if it is. The typed
text can be taken to the constructor tab exactly if it is valid, with the same output, and gives the
outlines of the load and of the start, but for the ids below the root. -/
theorem text_routes_agree {s : Session} (h : Reachable s) (preferences : Preferences)
    {text : String} (filled : Text.isBlank text = false) :
    (s.load text).session.Agrees (s.typing text) ∧
    (start s.fields preferences (some text)).session.Agrees (s.typing text) ∧
    (s.load text).result = (s.load text).session.isValid ∧
    ((s.load text).session.tab = .constructor ↔ (s.load text).session.isValid = true) ∧
    ((start s.fields preferences (some text)).session.tab = .constructor ↔
      (start s.fields preferences (some text)).session.isValid = true) ∧
    ((s.typing text).setTab .constructor).result = (s.typing text).isValid ∧
    ((s.typing text).isValid = true →
      (s.load text).session.root.Resembles (s.taking text).root ∧
      (start s.fields preferences (some text)).session.root.Resembles (s.taking text).root ∧
      (s.taking text).Agrees (s.typing text)) := by
  obtain ⟨json, pending, fields, next, root⟩ := s.typing_parts text
  obtain ⟨loaded, answer, tab⟩ := s.load_verdict filled
  obtain ⟨started, -, tab'⟩ := (blank s.fields preferences).load_verdict filled
  rw [start_filled s.fields preferences filled]
  have typed : (s.typing text).verdict = (judgeText s.fields text).1 := by
    obtain ⟨json, fields, -⟩ := s.setTab_json
    rw [← fields]
    exact setText_verdict json filled
  obtain ⟨taken, outline⟩ :=
    setTab_constructor (h.typing text).coherent json (pending.symm ▸ filled)
  refine ⟨agrees_of_verdict (loaded.trans typed.symm), agrees_of_verdict (started.trans typed.symm),
    answer, tab, tab', taken, fun valid => ?_⟩
  obtain ⟨e, checked, session, verdict⟩ := outline valid
  rw [pending, fields] at checked
  have same : (s.taking text).root =
      { (Reading.ofExpression e s.next).root with id := s.root.id } := by
    rw [taking, session, onOutline, next, root]
  refine ⟨?_, ?_, agrees_of_verdict verdict⟩
  · rw [(load_of_ok filled checked).2, same]
    exact resembles_self _
  · have fresh : 2 ≤ s.next := by
      have drawn := h.sound.drawn _ s.root.id_mem_ids
      rwa [h.root_id] at drawn
    have other : Validation.checkText (blank s.fields preferences).fields text = .ok e := checked
    rw [(load_of_ok filled other).2, same, h.root_id]
    exact resembles_ofExpression e fresh

/-- A session on a text that breaks off. -/
def unfinished : Session :=
  (start [⟨"name", .string, none, none⟩] ⟨16, true, false⟩ (some "[")).session

theorem text_routes_agree_unfinished : Reachable unfinished ∧ unfinished.isValid = false ∧
    (unfinished.load "[\"has\",[\"get\",\"name\"]]").session.Agrees
      (unfinished.typing "[\"has\",[\"get\",\"name\"]]") ∧
    (unfinished.typing "[\"has\",[\"get\",\"name\"]]").output.toOption =
      some (some "[\"all\",[\"has\",[\"get\",\"name\"]]]") ∧
    (unfinished.load "[\"has\",[\"get\",\"name\"]]").session.root.Resembles
      (unfinished.taking "[\"has\",[\"get\",\"name\"]]").root := by
  have reachable : Reachable unfinished := .start ..
  have filled : Text.isBlank "[\"has\",[\"get\",\"name\"]]" = false := by decide +kernel
  have valid : (unfinished.typing "[\"has\",[\"get\",\"name\"]]").isValid = true := by
    decide +kernel
  obtain ⟨loaded, -, -, -, -, -, outlines⟩ :=
    text_routes_agree reachable ⟨16, false, false⟩ filled
  exact ⟨reachable, by decide +kernel, loaded, by decide +kernel, (outlines valid).1⟩

end FieldFilter.Session
