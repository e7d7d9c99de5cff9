import FieldFilter.Expression

/-!
# Tokens and field references

The words at the head of an expression decide what it is, and each has one meaning.
-/

namespace FieldFilter.Expression

theorem headOfToken_group_iff {token : String} {j : Junction} :
    headOfToken token = .group j ↔ token = j.token := by
  constructor
  · intro h
    unfold headOfToken at h
    split at h
    · rename_i k found
      obtain rfl : k = j := by simpa using h
      have same : k.token = token := by simpa using List.find?_some found
      exact same.symm
    · split at h <;> cases h
  · rintro rfl
    exact head_group j []

theorem headOfToken_condition_iff {token : String} {op : Operator} :
    headOfToken token = .condition op ↔ token = op.token := by
  constructor
  · intro h
    unfold headOfToken at h
    split at h
    · cases h
    · split at h
      · rename_i other found
        obtain rfl : other = op := by simpa using h
        have same : other.token = token := by simpa using List.find?_some found
        exact same.symm
      · cases h
  · rintro rfl
    exact head_condition op "" none

theorem fieldName?_eq_some_iff {v : Json} {name : String} :
    fieldName? v = some name ↔ v = fieldReference name := by
  constructor
  · intro h
    unfold fieldName? at h
    split at h
    · split at h
      · rename_i same
        obtain rfl := Option.some.inj h
        rw [same, fieldReference]
      · cases h
    · cases h
  · rintro rfl
    exact fieldName?_fieldReference name

theorem fieldReference_injective {name key : String}
    (same : fieldReference name = fieldReference key) : name = key := by
  have named := fieldName?_eq_some_iff.2 same
  rw [fieldName?_fieldReference] at named
  exact Option.some.inj named

theorem exists_of_head_group {e : Json} {j : Junction} (h : head e = .group j) :
    ∃ token arguments, e = .arr (.str token :: arguments) ∧ headOfToken token = .group j := by
  unfold head at h
  split at h
  · cases h
  · exact ⟨_, _, rfl, h⟩
  · cases h

/-- No token stands for both a junction and an operator. -/
theorem token_ne (j : Junction) (op : Operator) : j.token ≠ op.token := by
  intro same
  have head := headOfToken_group_iff.2 same.symm
  rw [headOfToken_condition_iff.2 rfl] at head
  cases head

theorem token_injective {op op' : Operator} (same : op.token = op'.token) : op = op' := by
  have head := headOfToken_condition_iff.2 same
  rw [headOfToken_condition_iff.2 rfl] at head
  exact Head.condition.inj head

end FieldFilter.Expression
