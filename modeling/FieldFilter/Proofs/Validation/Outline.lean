import FieldFilter.Proofs.Outline.Height
import FieldFilter.Proofs.Validation.Normal

/-!
# The check of an outline

Groups never fail the check by themselves, unless they nest too deep. In an intact outline that is
not too high the expression is accepted exactly if the expression of every condition is
(`check_outline_iff`), whichever groups are left out of it, and whatever the fields are, no fault in
nesting is found in it (`check_ne_nesting`). An outline that is read from an accepted expression is
not too high (`height_ofExpression`).
-/

namespace FieldFilter

open Validation

theorem Expression.Plain.isArray {e : Json} (h : Plain e) : e.isArray = true := by
  cases h <;> rfl

/-- The expression of the condition, if it has one, is accepted. -/
def Condition.Accepted (fields : List Field) (c : Condition) : Prop :=
  ∀ e, c.expression? = some e → check fields e = .ok ()

/-- The check of a condition does not depend on the groups around it. -/
theorem Condition.checkAt_expression? {fields : List Field} {c : Condition} {e : Json}
    (h : c.expression? = some e) (depth : Nat) :
    checkAt fields depth e = .ok () ↔ check fields e = .ok () := by
  obtain ⟨-, ⟨-, rfl⟩ | ⟨-, v, -, -, rfl⟩⟩ := expression?_cases h
  · rw [check, checkAt_condition_iff, checkAt_condition_iff]
  · rw [check, checkAt_condition_iff, checkAt_condition_iff]

theorem Condition.accepted_of_incomplete {c : Condition} (h : ¬ c.Complete)
    (fields : List Field) : c.Accepted fields := by
  intro e written
  exact absurd (complete_of_expression? written) h

namespace Group

variable {fields : List Field}

/-- What is written of accepted conditions is accepted, as far as the groups may nest. -/
theorem checkAt_of_accepted (g : Group) : ∀ depth, g.height + depth ≤ Limits.filterNesting →
    (∀ c ∈ g.leaves, c.Accepted fields) →
      ∀ e, g.expression? = some e → checkAt fields depth e = .ok () := by
  induction g using induct with
  | step g ih =>
    intro depth low accepted e h
    have pos := g.height_pos
    rw [leaves_eq] at accepted
    obtain ⟨children, some, rfl, each⟩ := expression?_cases h
    refine checkAt_group_iff.2 ⟨by omega, some, ?_⟩
    intro v hv
    obtain ⟨c, hc, written⟩ | ⟨x, hx, written⟩ := each v hv
    · refine ⟨(Condition.plain_expression? written).isArray, ?_⟩
      rw [Condition.checkAt_expression? written]
      exact accepted c (List.mem_append_left _ hc) v written
    · refine ⟨(plain_expression? x v written).isArray, ?_⟩
      have lower := (Sits.inside hx (.here x)).height_le
      apply ih x hx (depth + 1) (by omega) _ v written
      intro c hc
      exact accepted c (List.mem_append_right _ (List.mem_flatMap.2 ⟨x, hx, hc⟩))

/-- The expressions of the children stand in the expression of their group. -/
theorem mem_of_expression? {g : Group} {children : List Json} {i : Item} {v : Json}
    (h : g.expression? = some (.arr (.str g.junction.token :: children))) (hi : i ∈ g.children)
    (written : i.expression? = some v) : v ∈ children := by
  rw [expression?_eq] at h
  obtain ⟨-, he⟩ := joined?_eq_some_iff.1 h
  obtain ⟨-, rfl⟩ := List.cons.inj (Json.arr.inj he)
  exact List.mem_filterMap.2 ⟨i, hi, written⟩

/-- If the expression of an intact group is accepted, its conditions are. -/
theorem accepted_of_checkAt (g : Group) : g.Intact → ∀ depth e, g.expression? = some e →
    checkAt fields depth e = .ok () → ∀ c ∈ g.leaves, c.Accepted fields := by
  induction g using induct with
  | step g ih =>
    intro hg depth e h accepted c hc
    obtain ⟨children, -, rfl, -⟩ := expression?_cases h
    obtain ⟨-, -, each⟩ := checkAt_group_iff.1 accepted
    rw [leaves_eq] at hc
    obtain own | below := List.mem_append.1 hc
    · intro v written
      have hv := mem_of_expression? h (condition_mem_children hg own) written
      rw [← Condition.checkAt_expression? written (depth + 1)]
      exact (each v hv).2
    · obtain ⟨x, hx, hc⟩ := List.mem_flatMap.1 below
      have intact := hg.of_mem (mem_family_of_mem hx)
      cases written : x.expression? with
      | none =>
        have incomplete := (expression?_eq_none_iff intact).1 written c hc
        exact Condition.accepted_of_incomplete incomplete fields
      | some v =>
        have hv := mem_of_expression? h (group_mem_children hg hx) written
        exact ih x hx intact (depth + 1) v written (each v hv).2 c hc

/-- An intact outline that is not too high has an accepted expression, or none, exactly if all its
conditions have. -/
theorem check_outline_iff {g : Group} (hg : g.Intact) (low : g.height ≤ Limits.filterNesting) :
    (∀ e, g.expression? = some e → check fields e = .ok ()) ↔
      ∀ c ∈ g.leaves, c.Accepted fields := by
  constructor
  · intro accepted c hc
    cases written : g.expression? with
    | none =>
      have incomplete := (expression?_eq_none_iff hg).1 written c hc
      exact Condition.accepted_of_incomplete incomplete fields
    | some e => exact accepted_of_checkAt g hg 0 e written (accepted e written) c hc
  · intro accepted
    exact checkAt_of_accepted g 0 low accepted

/-! ## Nesting -/

/-- No group stands in the expression inside as many others as the height counts. -/
theorem enclosed_height (g : Group) : ∀ e, g.expression? = some e →
    ∀ n x, Enclosed n x e → n < g.height := by
  induction g using induct with
  | step g ih =>
    intro e h
    obtain ⟨children, -, rfl, each⟩ := expression?_cases h
    refine enclosed_group_iff.2 ⟨g.height_pos, fun v hv n x stands => ?_⟩
    obtain ⟨c, -, written⟩ | ⟨y, hy, written⟩ := each v hv
    · obtain ⟨-, ⟨-, rfl⟩ | ⟨-, w, -, -, rfl⟩⟩ := Condition.expression?_cases written
      · exact absurd stands not_enclosed_condition
      · exact absurd stands not_enclosed_condition
    · have lower := (Sits.inside hy (.here y)).height_le
      have below := ih y hy v written n x stands
      omega

/-- Groups that nest as deep as they may have no fault in nesting, whatever the fields. -/
theorem check_ne_nesting {g : Group} (low : g.height ≤ Limits.filterNesting) {e : Json}
    (written : g.expression? = some e) (depth limit : Nat) :
    check fields e ≠ .error (.nestingTooDeep depth limit) := by
  intro h
  obtain ⟨n, x, stands, -, deep⟩ := (faulty_of_checkAt e 0 h).enclosed
  have reach := enclosed_height g e written n x stands
  omega

end Group

namespace Reading

open FieldFilter.Group

/-- The groups that are read nest no deeper than those that are checked. -/
theorem Reads.height {fields : List Field} {vs : List Json} {is : List Item} {n m : NodeId}
    (h : Reads n vs is m) : ∀ depth, depth ≤ Limits.filterNesting →
      (∀ v ∈ vs, checkAt fields depth v = .ok ()) →
        ∀ i ∈ is, i.height + depth ≤ Limits.filterNesting := by
  induction h with
  | nil => exact fun _ _ _ i hi => by cases hi
  | other _ _ _ ih =>
    intro depth room all
    exact ih depth room (List.forall_mem_cons.1 all).2
  | nameless _ _ _ ih =>
    intro depth room all
    exact ih depth room (List.forall_mem_cons.1 all).2
  | condition _ _ _ ih =>
    intro depth room all i hi
    obtain rfl | hi := List.mem_cons.1 hi
    · simpa [Item.height] using room
    · exact ih depth room (List.forall_mem_cons.1 all).2 i hi
  | @group token j _ _ inner _ n _ _ known _ _ ih ih' =>
    intro depth room all i hi
    obtain ⟨first, others⟩ := List.forall_mem_cons.1 all
    obtain rfl | hi := List.mem_cons.1 hi
    · rw [Expression.headOfToken_group_iff.1 known] at first
      obtain ⟨room, -, each⟩ := checkAt_group_iff.1 first
      have below : (ofItems n j inner).height ≤ Limits.filterNesting - (depth + 1) + 1 := by
        apply height_ofItems.2
        intro i hi
        have reach := ih (depth + 1) room (fun v hv => (each v hv).2) i hi
        omega
      simp only [Item.height]
      omega
    · exact ih' depth room others i hi

/-- An outline that is read from an accepted expression is not too high. -/
theorem height_ofExpression {fields : List Field} {e : Json} (h : check fields e = .ok ())
    (n : NodeId) : (ofExpression e n).root.height ≤ Limits.filterNesting := by
  obtain ⟨is, root, read⟩ := ofExpression_reads e n
  have one : Limits.filterNesting = 31 + 1 := rfl
  rw [root, one, height_ofItems]
  intro i hi
  have reach := read.height 1 (by decide) (checkAt_parts h) i hi
  omega

end Reading

end FieldFilter
