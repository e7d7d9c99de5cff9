import FieldFilter.Proofs.Json.RoundTrip
import FieldFilter.Proofs.Outline.Normal
import FieldFilter.Proofs.Validation.Language

/-!
# The check and the plainest form

An accepted expression stays accepted when it is read into an outline and written again
(`check_normal`), and does not nest deeper than the reader of texts goes (`nesting_of_check`).
-/

namespace FieldFilter

open Validation

theorem Expression.exists_of_head_condition {e : Json} {op : Operator}
    (h : head e = .condition op) : ∃ arguments, e = .arr (.str op.token :: arguments) := by
  unfold head at h
  split at h
  · cases h
  · rename_i token arguments
    rw [headOfToken_condition_iff.1 h]
    exact ⟨arguments, rfl⟩
  · cases h

namespace Reading

open FieldFilter.Group

/-- An accepted condition is written as it stands. -/
theorem expression?_of_accepted {fields : List Field} {op : Operator} {arguments : List Json}
    {n : NodeId} {c : Condition} {v : Json} (accepted : checkCondition fields op arguments = .ok ())
    (read : condition? op arguments n = some c) (written : c.expression? = some v) :
    v = .arr (.str op.token :: arguments) := by
  obtain ⟨key, f, values, rfl, -, -, takes⟩ := checkCondition_iff.1 accepted
  obtain ⟨reference, values, name, split, named, rfl⟩ := condition?_eq_some read
  obtain ⟨rfl, rfl⟩ := List.cons.inj split
  rw [Expression.fieldName?_fieldReference] at named
  obtain rfl := Option.some.inj named
  have count := takes.length
  unfold Operator.arity at count
  obtain ⟨-, ⟨unary, rfl⟩ | ⟨binary, v, some, -, rfl⟩⟩ := Condition.expression?_cases written
  · rw [if_pos unary] at count
    obtain rfl := List.eq_nil_of_length_eq_zero (Nat.succ.inj count)
    rfl
  · have binary : ¬ op.isUnary = true := by simpa using binary
    rw [if_neg binary] at count some
    obtain ⟨w, rfl⟩ := List.length_eq_one_iff.1 (Nat.succ.inj count)
    obtain rfl : w = v := by simpa using some
    rfl

/-- What is written of accepted elements is accepted. -/
theorem Reads.accepted {fields : List Field} {vs : List Json} {is : List Item} {n m : NodeId}
    (h : Reads n vs is m) : ∀ depth, (∀ v ∈ vs, checkAt fields depth v = .ok ()) →
      ∀ v ∈ written is, v.isArray = true ∧ checkAt fields depth v = .ok () := by
  induction h with
  | nil => exact fun _ _ v hv => by cases hv
  | other _ _ _ ih => exact fun depth all => ih depth (List.forall_mem_cons.1 all).2
  | nameless _ _ _ ih => exact fun depth all => ih depth (List.forall_mem_cons.1 all).2
  | condition known read _ ih =>
    intro depth all v hv
    obtain ⟨first, others⟩ := List.forall_mem_cons.1 all
    rw [written_cons] at hv
    obtain own | hv := List.mem_append.1 hv
    · rw [Expression.headOfToken_condition_iff.1 known] at first
      have same := expression?_of_accepted (checkAt_condition_iff.1 first) read
        (Option.mem_toList.1 own)
      rw [same]
      exact ⟨rfl, first⟩
    · exact ih depth others v hv
  | @group _ j _ _ _ _ _ _ _ known inner _ ih ih' =>
    intro depth all v hv
    obtain ⟨first, others⟩ := List.forall_mem_cons.1 all
    rw [written_cons] at hv
    obtain own | hv := List.mem_append.1 hv
    · rw [Expression.headOfToken_group_iff.1 known] at first
      obtain ⟨room, -, each⟩ := checkAt_group_iff.1 first
      have joined := Option.mem_toList.1 own
      rw [Item.expression?, inner.expression?_group j] at joined
      obtain ⟨some, rfl⟩ := joined?_eq_some_iff.1 joined
      exact ⟨rfl, checkAt_group_iff.2
        ⟨room, some, ih (depth + 1) fun v hv => (each v hv).2⟩⟩
    · exact ih' depth others v hv

end Reading

namespace Validation

open FieldFilter.Group Reading

/-- The elements that are read of an accepted expression are accepted inside one group. -/
theorem checkAt_parts {fields : List Field} {e : Json} (h : check fields e = .ok ()) :
    ∀ v ∈ (parts e).2, checkAt fields 1 v = .ok () := by
  obtain ⟨j, token, arguments, rfl, known, parts⟩ | ⟨op, known, parts⟩ | ⟨-, -, parts⟩ :=
    parts_cases e
  · rw [parts]
    obtain rfl := Expression.headOfToken_group_iff.1 known
    obtain ⟨-, -, each⟩ := checkAt_group_iff.1 h
    exact fun v hv => (each v hv).2
  · rw [parts]
    obtain ⟨arguments, rfl⟩ := Expression.exists_of_head_condition known
    have accepted := checkAt_condition_iff.1 h
    intro v hv
    obtain rfl := List.mem_singleton.1 hv
    exact checkAt_condition_iff.2 accepted
  · rw [parts]
    exact fun v hv => by cases hv

/-- An accepted expression is still accepted when it was read and written again. -/
theorem check_normal {fields : List Field} {e v : Json} {n : NodeId} (h : check fields e = .ok ())
    (written : (ofExpression e n).root.expression? = some v) : check fields v = .ok () := by
  obtain ⟨is, read, root⟩ := expression?_root e n
  obtain ⟨some, rfl⟩ := joined?_eq_some_iff.1 (root.symm.trans written)
  exact checkAt_group_iff.2 ⟨by decide, some, read.accepted 1 (checkAt_parts h)⟩

theorem Fits.nesting {t : DataType} {v : Json} (h : Fits t v) : v.nesting = 0 := by
  have number {v : Json} (h : v.isNumber = true) : v.nesting = 0 := by
    cases v <;> first | rfl | cases h
  cases h with
  | integer h => exact number h
  | real h => exact number h
  | _ => rfl

theorem Takes.nesting {t : DataType} {kind : ValueKind} {values : List Json}
    (h : Takes t kind values) : Json.nestingAll values ≤ 1 := by
  cases h with
  | none => exact Nat.zero_le _
  | scalar fits => simp [Json.nestingAll, fits.nesting]
  | @list items fits =>
    have flat := Json.nestingAll_le.2 fun v hv => (fits v hv).nesting.le
    simp only [Json.nestingAll, Json.nesting]
    omega

/-- A filter inside `depth` groups nests at most two deeper than groups may: the elements of a
condition are a field reference and perhaps a list. -/
theorem nesting_of_checkAt {fields : List Field} (e : Json) : ∀ depth,
    depth ≤ Limits.filterNesting → checkAt fields depth e = .ok () →
      e.nesting + depth ≤ Limits.filterNesting + 2 := by
  induction e using Json.arrayInduct with
  | other v hv =>
    intro depth _ h
    obtain rfl | ⟨_, _, rfl⟩ | ⟨_, _, rfl⟩ := checkAt_cases h <;> cases hv
  | arr vs ih =>
    intro depth room h
    obtain he | ⟨j, children, he⟩ | ⟨op, arguments, he⟩ := checkAt_cases h
    · rw [he, Json.nesting, Json.nestingAll]
      omega
    · obtain rfl := Json.arr.inj he
      obtain ⟨room, -, each⟩ := checkAt_group_iff.1 h
      have inner : Json.nestingAll children ≤ Limits.filterNesting + 2 - (depth + 1) := by
        refine Json.nestingAll_le.2 fun v hv => ?_
        have := ih v (List.mem_cons_of_mem _ hv) (depth + 1) room (each v hv).2
        omega
      rw [Json.nesting, Json.nestingAll, Json.nesting_str]
      omega
    · rw [he] at h ⊢
      obtain ⟨key, f, values, rfl, -, -, takes⟩ :=
        checkCondition_iff.1 (checkAt_condition_iff.1 h)
      have inner := takes.nesting
      simp only [Json.nesting, Json.nestingAll, Expression.fieldReference]
      omega

/-- The text of an accepted expression can be read. -/
theorem nesting_of_check {fields : List Field} {e : Json} (h : check fields e = .ok ()) :
    e.nesting ≤ Json.nestingLimit := by
  have bound := nesting_of_checkAt e 0 (Nat.zero_le _) h
  exact Nat.le_trans bound (by decide)

end Validation

end FieldFilter
