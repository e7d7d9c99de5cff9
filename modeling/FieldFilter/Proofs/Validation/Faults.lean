import FieldFilter.Proofs.Validation.Outline

/-!
# What is at fault in an outline

What is written of an outline keeps to the grammar of filters, however the outline is broken and
whatever its conditions hold. So the check of it finds a condition at fault, in what its field, its
operator and its value have to do with one another, or that the groups nest too deep
(`fault_of_written`).
-/

namespace FieldFilter

open Validation

namespace Condition

/-- What can be at fault in a condition over some fields: its field, its operator for the type of
the field, or its value for both. -/
inductive Blamed (fields : List Field) (c : Condition) : Fault → Prop
  | field : (∀ f ∈ fields, f.key ≠ c.field) → Blamed fields c (.unknownField (shownText c.field))
  | operator {f : Field} : First fields c.field f → c.op.supports f.type = false →
      Blamed fields c (.unsupportedOperator c.op (shownText c.field) f.type)
  | value {f : Field} {v : Json} {fault : Fault} : First fields c.field f →
      c.op.supports f.type = true → c.value = some v → ¬ Takes f.type c.op.valueKind [v] →
      Misfit c.field f.type c.op v fault → Blamed fields c fault

variable {fields : List Field} {c : Condition} {fault : Fault}

/-- A value that does not fit is no fault in the grammar. -/
theorem Blamed.isShape (h : c.Blamed fields fault) : fault.isShape = false := by
  cases h with
  | field => rfl
  | operator => rfl
  | value _ _ _ _ misfit => exact misfit.isShape

theorem Blamed.name (h : c.Blamed fields fault) : fault.name ∈
    ["UnknownField", "UnsupportedOperator", "InvalidValueType", "InvalidPattern"] := by
  cases h with
  | field => exact .head _
  | operator => exact .tail _ (.head _)
  | value _ _ _ _ misfit => exact .tail _ (.tail _ misfit.name)

/-- A condition that is written has the elements of its operator, the first of them a field. -/
theorem blamed_of_mistake (values : List Json) (count : values.length + 1 = c.op.arity)
    (value : ∀ v ∈ values, c.value = some v)
    (h : Mistake fields c.op (Expression.fieldReference c.field :: values) fault) :
    c.Blamed fields fault := by
  generalize he : Expression.fieldReference c.field :: values = arguments at h
  cases h with
  | arity other =>
    rw [← he, List.length_cons] at other
    exact absurd count other
  | reference other =>
    obtain ⟨rfl, -⟩ := List.cons.inj he
    exact absurd rfl (other c.field)
  | field missing =>
    obtain ⟨same, -⟩ := List.cons.inj he
    obtain rfl := Expression.fieldReference_injective same
    exact .field missing
  | operator first unsupported =>
    obtain ⟨same, -⟩ := List.cons.inj he
    obtain rfl := Expression.fieldReference_injective same
    exact .operator first unsupported
  | @value _ _ v rest _ first supported misfit found =>
    obtain ⟨same, rfl⟩ := List.cons.inj he
    obtain rfl := Expression.fieldReference_injective same
    -- no operator takes more than one element besides the field
    have alone : rest = [] := by
      unfold Operator.arity at count
      split at count
      · simp at count
      · simpa using count
    subst alone
    exact .value first supported (value v List.mem_cons_self) misfit found

theorem blamed_of_check {e : Json} {depth : Nat} (written : c.expression? = some e)
    (h : checkAt fields depth e = .error fault) : c.Blamed fields fault := by
  obtain ⟨-, ⟨unary, rfl⟩ | ⟨binary, v, some, -, rfl⟩⟩ := expression?_cases written
  · rw [checkAt_condition] at h
    exact blamed_of_mistake [] (by simp [Operator.arity, unary]) nofun
      (mistake_of_check h)
  · rw [checkAt_condition] at h
    exact blamed_of_mistake [v] (by simp [Operator.arity, binary]) (by simpa using some)
      (mistake_of_check h)

end Condition

namespace Group

variable {fields : List Field}

theorem blamed_of_check (g : Group) : ∀ depth e fault, depth ≤ Limits.filterNesting →
    g.expression? = some e → checkAt fields depth e = .error fault →
      (fault = .nestingTooDeep (Limits.filterNesting + 1) Limits.filterNesting ∧
        Limits.filterNesting < g.height + depth) ∨
      ∃ c ∈ g.leaves, c.Complete ∧ c.Blamed fields fault := by
  induction g using induct with
  | step g ih =>
    intro depth e fault low written h
    obtain ⟨children, some, rfl, each⟩ := expression?_cases written
    rw [leaves_eq]
    have pos := g.height_pos
    rw [checkAt, Expression.headOfToken_group_iff.2 rfl] at h
    dsimp only at h
    split at h
    -- a check that enters groups one by one meets the limit at a group just above it
    · rename_i deep
      obtain rfl := Except.error.inj h
      obtain rfl := Nat.le_antisymm low deep
      exact .inl ⟨rfl, by omega⟩
    · rename_i room
      rw [if_neg (by simpa using some)] at h
      obtain ⟨v, hv, found⟩ := exists_of_checkChildren h
      obtain ⟨c, hc, own⟩ | ⟨x, hx, below⟩ := each v hv
      · obtain ⟨other, -⟩ | found := found
        · rw [(Condition.plain_expression? own).isArray] at other
          cases other
        · exact .inr ⟨c, List.mem_append_left _ hc, Condition.complete_of_expression? own,
            Condition.blamed_of_check own found⟩
      · obtain ⟨other, -⟩ | found := found
        · rw [(plain_expression? x v below).isArray] at other
          cases other
        · have lower := (Sits.inside hx (.here x)).height_le
          obtain ⟨rfl, deep⟩ | ⟨c, hc, blamed⟩ := ih x hx (depth + 1) v fault (by omega) below found
          · exact .inl ⟨rfl, by omega⟩
          · refine .inr ⟨c, List.mem_append_right _ ?_, blamed⟩
            exact List.mem_flatMap.2 ⟨x, hx, hc⟩

/-- Whatever the group and the fields: if what is written of the group fails the check, either one
of its complete conditions is at fault, or the group is higher than filters may nest. So there are
five faults that it can be, and the grammar itself is at fault only in groups that are too high. -/
theorem fault_of_written {g : Group} {e : Json} {fault : Fault} (written : g.expression? = some e)
    (failed : check fields e = .error fault) :
    ((fault = .nestingTooDeep (Limits.filterNesting + 1) Limits.filterNesting ∧
        Limits.filterNesting < g.height) ∨
      ∃ c ∈ g.leaves, c.Complete ∧ c.Blamed fields fault) ∧
    (fault.isShape = true → Limits.filterNesting < g.height) ∧
    fault.name ∈ ["NestingTooDeep", "UnknownField", "UnsupportedOperator", "InvalidValueType",
      "InvalidPattern"] := by
  have found := blamed_of_check g 0 e fault (Nat.zero_le _) written failed
  refine ⟨found, ?_⟩
  obtain ⟨rfl, high⟩ | ⟨c, -, -, blamed⟩ := found
  · exact ⟨fun _ => high, .head _⟩
  · refine ⟨fun shape => ?_, .tail _ blamed.name⟩
    rw [blamed.isShape] at shape
    cases shape

/-- A group that orders a condition twice and one that is not there, beside a subgroup with its own
id. -/
def ragged : Group :=
  ⟨1, .any, [⟨1, "name", .equal, some (.int 3)⟩, ⟨2, "", .less, none⟩], [.empty 1 .all],
    [⟨.group, 1⟩, ⟨.condition, 1⟩, ⟨.condition, 9⟩, ⟨.condition, 1⟩]⟩

theorem fault_of_written_ragged :
    ragged.expression?.isSome = true ∧
      ∀ e, ragged.expression? = some e →
        check [⟨"name", .string, none, none⟩] e =
          .error (.wrongValueType "name" .string .equal "string" "3") ∧
        ∃ c ∈ ragged.leaves, c.Complete ∧ c.Blamed [⟨"name", .string, none, none⟩]
          (.wrongValueType "name" .string .equal "string" "3") := by
  refine ⟨rfl, fun e written => ?_⟩
  have failed : check [⟨"name", .string, none, none⟩] e =
      .error (.wrongValueType "name" .string .equal "string" "3") := by
    obtain rfl := Option.some.inj written
    rfl
  obtain ⟨⟨other, -⟩ | blamed, -⟩ := fault_of_written written failed
  · cases other
  · exact ⟨failed, blamed⟩

end Group

end FieldFilter
