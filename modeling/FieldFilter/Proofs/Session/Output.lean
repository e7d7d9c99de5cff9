import FieldFilter.Proofs.Session.Coherence
import FieldFilter.Proofs.Session.Identity
import FieldFilter.Proofs.Validation.Normal

/-!
# What sessions give out

The values of an outline are always such as a text can mean (`Valued`), whatever calls put them
there. A verdict on either view is therefore the text of a canonical filter that is accepted and can
be read back, or no text, and then the view holds no complete condition (`output_canonical`).
-/

namespace FieldFilter.Session

open FieldFilter.Group

/-- All values of the outline are of the kind that a text can mean. -/
def Valued (s : Session) : Prop := ∀ c ∈ s.root.leaves, c.Proper

theorem proper_defaultValue (t : DataType) (today : Day) : (t.defaultValue today).Proper := by
  cases t with
  | integer | real => exact ⟨by decide, by decide⟩
  | _ => trivial

theorem proper_newCondition (s : Session) (today : Day) : (s.newCondition today).Proper := by
  intro v hv
  unfold newCondition at hv
  split at hv
  · cases hv
  · obtain rfl := Option.some.inj hv
    exact proper_defaultValue _ today

theorem proper_apply {patch : Patch} {c : Condition} (hc : c.Proper)
    (h : ∀ v, patch.value = some (some v) → v.Proper) : (c.apply patch).Proper := by
  intro v hv
  cases value : patch.value with
  | none =>
    apply hc v
    simpa [Condition.apply, value] using hv
  | some new =>
    apply h v
    apply value.trans
    simpa [Condition.apply, value] using hv

/-- Most calls bring in no other conditions than new ones with default values. -/
theorem leaf_of_edit {s : Session} {g : Group} {n : NodeId} (h : Edit s g n) {c : Condition}
    (hc : c ∈ g.leaves) : c ∈ s.root.leaves ∨ ∃ today, c = s.newCondition today := by
  cases h with
  | addedCondition today group _ inserted =>
    obtain own | old := List.mem_append.1 ((insert_leaves inserted).mem_iff.1 hc)
    · exact .inr ⟨today, List.mem_singleton.1 own⟩
    · exact .inl old
  | addedGroup parent j _ _ _ inserted =>
    obtain own | old := List.mem_append.1 ((insert_leaves inserted).mem_iff.1 hc)
    · cases own
    · exact .inl old
  | rejoined id j modified =>
    obtain ⟨x, -, r⟩ := modifyGroup_replaced modified
    obtain own | old := r.leaf_cases rfl hc
    · exact .inl (mem_leaves_of_mem r.mem own)
    · exact .inl old
  | deleted kind id _ detached =>
    exact .inl ((detach_leaves detached).mem_iff.2 (List.mem_append_right _ hc))
  | moved kind id d _ _ detached inserted =>
    exact .inl ((detach_leaves detached).mem_iff.2 ((insert_leaves inserted).mem_iff.1 hc))
  | cleared => cases hc

theorem change_valued {s : Session} {g : Group} {n : NodeId} (hs : s.Valued) (h : Change s g n) :
    ∀ c ∈ g.leaves, c.Proper := by
  cases h with
  | same => exact hs
  | edited edit =>
    intro c hc
    obtain old | ⟨today, rfl⟩ := leaf_of_edit edit hc
    · exact hs c old
    · exact proper_newCondition s today
  | patched id patch proper modified =>
    intro c hc
    obtain old | ⟨d, old, rfl⟩ := leaf_of_modifyCondition modified hc
    · exact hs c old
    · exact proper_apply (hs d old) proper
  | @read text e checked =>
    obtain ⟨-, read, -⟩ := Validation.checkText_iff.1 checked
    intro c hc
    rw [leaves_eq] at hc
    apply Reading.proper_ofExpression (Json.proper_of_read? read) s.next c
    rw [leaves_eq]
    exact hc

theorem step_valued {s t : Session} (hs : s.Valued) (h : Step s t) : t.Valued := by
  cases h with
  | kept => exact hs
  | scrolled => exact hs
  | judged _ _ change =>
    rw [revalidate_session]
    exact change_valued hs change
  | rejected => exact hs

theorem Reachable.valued {s : Session} (h : Reachable s) : s.Valued :=
  h.of_step (fun _ _ c hc => by cases hc) fun _ => step_valued

/-! ## Verdicts -/

/-- The text is that of a canonical filter that is accepted and can be read back. -/
structure Published (fields : List Field) (text : String) (e : Json) : Prop where
  rendered : text = e.compact
  accepted : Validation.check fields e = .ok ()
  canonical : Expression.Canonical e
  read : Json.read? text = some e

/-- No complete condition is in the view that counts. -/
def Incomplete (s : Session) : Prop :=
  if s.tab = .json ∧ Text.isBlank s.text = false then
    ∃ e, Json.read? s.text = some e ∧ ∀ c, Expression.Occurs c e → ¬ Expression.Complete c
  else ∀ c ∈ s.root.leaves, ¬ c.Complete

theorem published_of_written {fields : List Field} {g : Group} {e : Json}
    (values : ∀ c ∈ g.leaves, c.Proper) (written : g.expression? = some e)
    (accepted : Validation.check fields e = .ok ()) : Published fields e.compact e where
  rendered := rfl
  accepted := accepted
  canonical := canonical_expression? written
  read := Json.read?_text (proper_expression? g values e written)
    (Validation.nesting_of_check accepted) .compact

theorem judgeOutline_some {fields : List Field} {g : Group} {text : String}
    (values : ∀ c ∈ g.leaves, c.Proper) (h : (judgeOutline fields g).1 = .ok (some text)) :
    ∃ e, g.expression? = some e ∧ Published fields text e := by
  obtain ⟨-, verdict⟩ | ⟨e, written, ⟨accepted, verdict⟩ | ⟨fault, -, verdict⟩⟩ :=
    judgeOutline_cases fields g
  · rw [verdict] at h
    cases h
  · rw [verdict] at h
    obtain rfl := Option.some.inj (Except.ok.inj h)
    exact ⟨e, written, published_of_written values written accepted⟩
  · rw [verdict] at h
    cases h

theorem judgeText_some {fields : List Field} {pending text : String}
    (h : (judgeText fields pending).1 = .ok (some text)) : ∃ e, Published fields text e := by
  unfold judgeText at h
  split at h
  · cases h
  · rename_i e checked
    obtain ⟨-, read, accepted⟩ := Validation.checkText_iff.1 checked
    obtain ⟨v, written, rfl⟩ := Option.map_eq_some_iff.1 (Except.ok.inj h)
    refine ⟨v, published_of_written ?_ written (Validation.check_normal accepted written)⟩
    exact Reading.proper_ofExpression (Json.proper_of_read? read) 1

theorem judgeOutline_none {fields : List Field} {g : Group} (hg : g.Intact)
    (h : (judgeOutline fields g).1 = .ok none) : ∀ c ∈ g.leaves, ¬ c.Complete := by
  apply (expression?_eq_none_iff hg).1
  obtain ⟨nothing, -⟩ | ⟨e, -, ⟨-, verdict⟩ | ⟨fault, -, verdict⟩⟩ := judgeOutline_cases fields g
  · exact nothing
  · rw [verdict] at h
    cases h
  · rw [verdict] at h
    cases h

theorem judgeText_none {fields : List Field} {pending : String}
    (h : (judgeText fields pending).1 = .ok none) : ∃ e, Json.read? pending = some e ∧
      ∀ c, Expression.Occurs c e → ¬ Expression.Complete c := by
  unfold judgeText at h
  split at h
  · cases h
  · rename_i e checked
    obtain ⟨-, read, -⟩ := Validation.checkText_iff.1 checked
    refine ⟨e, read, fun c occurs complete => ?_⟩
    obtain ⟨v, written⟩ := Reading.exists_of_occurs complete occurs 1
    dsimp only at h
    rw [written] at h
    cases h

theorem published_of_verdict {s : Session} (h : Reachable s) {text : String}
    (verdict : s.verdict = .ok (some text)) : ∃ e, Published s.fields text e := by
  have judged := h.coherent.symm.trans verdict
  rw [judge_eq] at judged
  split at judged
  · exact judgeText_some judged
  · obtain ⟨e, -, published⟩ := judgeOutline_some h.valued judged
    exact ⟨e, published⟩

theorem incomplete_of_verdict {s : Session} (h : Reachable s) (verdict : s.verdict = .ok none) :
    s.Incomplete := by
  have judged := h.coherent.symm.trans verdict
  rw [judge_eq] at judged
  unfold Incomplete
  split at judged
  · rename_i counts
    rw [if_pos counts]
    exact judgeText_none judged
  · rename_i counts
    rw [if_neg counts]
    exact judgeOutline_none h.sound.intact judged

/-! ## Output -/

theorem output_eq_ok_iff {s : Session} {text : Option String} :
    s.output = .ok text ↔ s.verdict = .ok text := by
  unfold output
  cases s.verdict <;> simp

theorem output_eq_error_iff {s : Session} {r : Refusal} :
    s.output = .error r ↔ ∃ fault, s.verdict = .error fault ∧ r = .invalid fault := by
  unfold output
  cases s.verdict <;> simp [eq_comm]

theorem isValid_eq_false_iff {s : Session} :
    s.isValid = false ↔ ∃ fault, s.verdict = .error fault := by
  unfold isValid
  cases s.verdict <;> simp [Except.isOk, Except.toBool]

theorem exists_refused_iff {s : Session} : (∃ r, s.output = .error r) ↔ s.isValid = false := by
  rw [isValid_eq_false_iff]
  constructor
  · rintro ⟨r, refused⟩
    obtain ⟨fault, invalid, -⟩ := output_eq_error_iff.1 refused
    exact ⟨fault, invalid⟩
  · rintro ⟨fault, invalid⟩
    exact ⟨.invalid fault, output_eq_error_iff.2 ⟨fault, invalid, rfl⟩⟩

theorem outputExpression_some {s : Session} {text : String} {e : Json}
    (given : s.output = .ok (some text)) (read : Json.read? text = some e) :
    s.outputExpression = .ok (some e) := by
  simp only [outputExpression, given, read]

theorem outputExpression_none {s : Session} (given : s.output = .ok none) :
    s.outputExpression = .ok none := by
  simp only [outputExpression, given]

/-- The expression is refused for no other reason than the text is: every text can be read. -/
theorem outputExpression_error_iff {s : Session} (h : Reachable s) {r : Refusal} :
    s.outputExpression = .error r ↔ s.output = .error r := by
  cases given : s.output with
  | error => simp [outputExpression, given]
  | ok given? =>
    cases given? with
    | none => simp [outputExpression_none given]
    | some text =>
      obtain ⟨e, published⟩ := published_of_verdict h (output_eq_ok_iff.1 given)
      simp [outputExpression_some given published.read]

/-- What a reachable session gives out is the text of a canonical filter that is accepted, and the
expression is that filter. Nothing is given out only when no complete condition is in the view that
counts. Both are refused exactly when the session is invalid, and for no other reason. -/
theorem output_canonical {s : Session} (h : Reachable s) :
    (∀ text, s.output = .ok (some text) → ∃ e, text = e.compact ∧
      Validation.check s.fields e = .ok () ∧ Expression.Canonical e ∧
      s.outputExpression = .ok (some e)) ∧
    (s.output = .ok none → s.Incomplete ∧ s.outputExpression = .ok none) ∧
    (∀ r, s.output = .error r ∨ s.outputExpression = .error r → ∃ fault, r = .invalid fault) ∧
    ((∃ r, s.output = .error r) ↔ s.isValid = false) ∧
    ((∃ r, s.outputExpression = .error r) ↔ s.isValid = false) := by
  refine ⟨fun text given => ?_, fun given => ?_, fun r refused => ?_, exists_refused_iff, ?_⟩
  · obtain ⟨e, published⟩ := published_of_verdict h (output_eq_ok_iff.1 given)
    exact ⟨e, published.rendered, published.accepted, published.canonical,
      outputExpression_some given published.read⟩
  · exact ⟨incomplete_of_verdict h (output_eq_ok_iff.1 given), outputExpression_none given⟩
  · rw [outputExpression_error_iff h, or_self] at refused
    obtain ⟨fault, -, rfl⟩ := output_eq_error_iff.1 refused
    exact ⟨fault, rfl⟩
  · simp only [outputExpression_error_iff h]
    exact exists_refused_iff

/-- A session on a condition in no group. -/
def single : Session :=
  (start [⟨"a", .integer, none, none⟩] ⟨16, true, false⟩
    (some "[\"==\",[\"get\",\"a\"],1]")).session

theorem output_canonical_single : Reachable single ∧
    single.output.toOption = some (some "[\"all\",[\"==\",[\"get\",\"a\"],1]]") ∧
    ∃ e, Expression.Canonical e ∧ single.outputExpression = .ok (some e) := by
  have reachable : Reachable single := .start ..
  have text : single.output.toOption = some (some "[\"all\",[\"==\",[\"get\",\"a\"],1]]") := by
    decide +kernel
  obtain ⟨given, -⟩ := output_canonical reachable
  cases output : single.output with
  | error => simp [output, Except.toOption] at text
  | ok t =>
    obtain rfl : t = _ := by simpa [output, Except.toOption] using text
    obtain ⟨e, -, -, canonical, expression⟩ := given _ output
    exact ⟨reachable, rfl, e, canonical, expression⟩

end FieldFilter.Session
