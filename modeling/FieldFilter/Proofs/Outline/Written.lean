import FieldFilter.Proofs.Outline.Items
import FieldFilter.Proofs.Json.Values

/-!
# The expression of an outline

The expression of a group is canonical (`canonical_expression?`): groups in it have children, and
conditions are complete and have just the elements of their operator. An intact outline has an
expression exactly if there is a complete condition in it (`expression?_eq_none_iff`).
-/

namespace FieldFilter

namespace Expression

/-- A complete condition with just the elements that its operator takes, or a group of such. -/
inductive Plain : Json → Prop
  | unary {op : Operator} {name : String} : op.isUnary = true → name ≠ "" →
      Plain (.arr [.str op.token, .arr [.str "get", .str name]])
  | binary {op : Operator} {name : String} {v : Json} : op.isUnary = false → name ≠ "" →
      v ≠ .null → Plain (.arr [.str op.token, .arr [.str "get", .str name], v])
  | group (j : Junction) {children : List Json} : children ≠ [] → (∀ v ∈ children, Plain v) →
      Plain (.arr (.str j.token :: children))

/-- The form in which filters are given out: a group of what is plain. -/
def Canonical (e : Json) : Prop :=
  Plain e ∧ ∃ (j : Junction) (children : List Json), e = .arr (.str j.token :: children)

end Expression

namespace Condition

/-- The condition has a field, and a value other than null if its operator takes one. -/
def Complete (c : Condition) : Prop :=
  c.field ≠ "" ∧ (c.op.isUnary = true ∨ ∃ v, c.value = some v ∧ v ≠ .null)

/-- The value of the condition is of the kind that a text can mean. -/
def Proper (c : Condition) : Prop := ∀ v, c.value = some v → v.Proper

/-- A condition is written as it is, if it is complete. -/
theorem expression?_cases {c : Condition} {e : Json} (h : c.expression? = some e) :
    c.field ≠ "" ∧
      ((c.op.isUnary = true ∧ e = .arr [.str c.op.token, .arr [.str "get", .str c.field]]) ∨
        c.op.isUnary = false ∧ ∃ v, c.value = some v ∧ v ≠ .null ∧
          e = .arr [.str c.op.token, .arr [.str "get", .str c.field], v]) := by
  unfold expression? at h
  split at h
  · cases h
  · rename_i named
    refine ⟨by simpa using named, ?_⟩
    split at h
    · rename_i unary
      obtain rfl := Option.some.inj h
      refine .inl ⟨unary, ?_⟩
      simp [Expression.condition, unary, Expression.fieldReference, Expression.getter]
    · rename_i binary
      rw [Bool.not_eq_true] at binary
      split at h
      · cases h
      · cases h
      · rename_i v other some
        obtain rfl := Option.some.inj h
        refine .inr ⟨binary, v, some, other, ?_⟩
        simp [Expression.condition, binary, Expression.fieldReference, Expression.getter]

theorem exists_of_complete {c : Condition} (h : c.Complete) : ∃ e, c.expression? = some e := by
  obtain ⟨named, needed⟩ := h
  unfold expression?
  rw [if_neg (by simpa using named)]
  by_cases unary : c.op.isUnary = true
  · rw [if_pos unary]
    exact ⟨_, rfl⟩
  · rw [if_neg unary]
    obtain taken | ⟨v, some, other⟩ := needed
    · exact absurd taken unary
    · rw [some]
      cases v with
      | null => exact absurd rfl other
      | _ => exact ⟨_, rfl⟩

theorem complete_of_expression? {c : Condition} {e : Json} (h : c.expression? = some e) :
    c.Complete := by
  obtain ⟨named, ⟨unary, -⟩ | ⟨-, v, some, other, -⟩⟩ := expression?_cases h
  · exact ⟨named, .inl unary⟩
  · exact ⟨named, .inr ⟨v, some, other⟩⟩

theorem plain_expression? {c : Condition} {e : Json} (h : c.expression? = some e) :
    Expression.Plain e := by
  obtain ⟨named, ⟨unary, rfl⟩ | ⟨binary, v, -, other, rfl⟩⟩ := expression?_cases h
  · exact .unary unary named
  · exact .binary binary named other

theorem proper_expression? {c : Condition} {e : Json} (hc : c.Proper) (h : c.expression? = some e) :
    e.Proper := by
  obtain ⟨-, ⟨-, rfl⟩ | ⟨-, v, some, -, rfl⟩⟩ := expression?_cases h
  · simp [Json.Proper, Json.ProperAll]
  · simpa [Json.Proper, Json.ProperAll] using hc v some

end Condition

namespace Group

theorem joined?_eq_some_iff {j : Junction} {children : List Json} {e : Json} :
    joined? j children = some e ↔ children ≠ [] ∧ e = .arr (.str j.token :: children) := by
  unfold joined?
  cases children <;> simp [Expression.group, eq_comm]

theorem mem_of_mem_children {g : Group} {i : Item} (h : i ∈ g.children) :
    (∃ c ∈ g.conditions, i = .condition c) ∨ ∃ x ∈ g.groups, i = .group x := by
  obtain ⟨⟨kind, id⟩, -, found⟩ := List.mem_filterMap.1 h
  cases kind with
  | condition =>
    obtain ⟨c, held, rfl⟩ := Option.map_eq_some_iff.1 found
    exact .inl ⟨c, List.mem_of_find?_eq_some held, rfl⟩
  | group =>
    obtain ⟨x, held, rfl⟩ := Option.map_eq_some_iff.1 found
    exact .inr ⟨x, List.mem_of_find?_eq_some held, rfl⟩

theorem condition_mem_children {g : Group} (hg : g.Intact) {c : Condition}
    (hc : c ∈ g.conditions) : .condition c ∈ g.children := by
  have entry : ⟨.condition, c.id⟩ ∈ g.order := by
    refine (hg.ordered g (mem_family_self g)).mem_iff.2 (List.mem_append_left _ ?_)
    exact List.mem_map.2 ⟨c, hc, rfl⟩
  have found := find?_of_nodup (nodup_conditions hg.unique) hc
  exact List.mem_filterMap.2 ⟨_, entry, congrArg (Option.map Item.condition) found⟩

theorem group_mem_children {g x : Group} (hg : g.Intact) (hx : x ∈ g.groups) :
    .group x ∈ g.children := by
  have entry : ⟨.group, x.id⟩ ∈ g.order := by
    refine (hg.ordered g (mem_family_self g)).mem_iff.2 (List.mem_append_right _ ?_)
    exact List.mem_map.2 ⟨x, hx, rfl⟩
  have found := find?_of_nodup (nodup_groups hg.unique) hx
  exact List.mem_filterMap.2 ⟨_, entry, congrArg (Option.map Item.group) found⟩

/-- What the expression of a group is made of. -/
theorem expression?_cases {g : Group} {e : Json} (h : g.expression? = some e) :
    ∃ children, children ≠ [] ∧ e = .arr (.str g.junction.token :: children) ∧
      ∀ v ∈ children, (∃ c ∈ g.conditions, c.expression? = some v) ∨
        ∃ x ∈ g.groups, x.expression? = some v := by
  rw [expression?_eq] at h
  obtain ⟨some, rfl⟩ := joined?_eq_some_iff.1 h
  refine ⟨_, some, rfl, fun v hv => ?_⟩
  obtain ⟨i, hi, written⟩ := List.mem_filterMap.1 hv
  obtain ⟨c, hc, rfl⟩ | ⟨x, hx, rfl⟩ := mem_of_mem_children hi
  · exact .inl ⟨c, hc, written⟩
  · exact .inr ⟨x, hx, written⟩

theorem plain_expression? (g : Group) : ∀ e, g.expression? = some e → Expression.Plain e := by
  induction g using induct with
  | step g ih =>
    intro e h
    obtain ⟨children, some, rfl, each⟩ := expression?_cases h
    refine .group g.junction some fun v hv => ?_
    obtain ⟨c, -, written⟩ | ⟨x, hx, written⟩ := each v hv
    · exact Condition.plain_expression? written
    · exact ih x hx v written

/-- What is written of a group is canonical, whatever the group. -/
theorem canonical_expression? {g : Group} {e : Json} (h : g.expression? = some e) :
    Expression.Canonical e := by
  obtain ⟨children, -, he, -⟩ := expression?_cases h
  exact ⟨plain_expression? g e h, g.junction, children, he⟩

theorem proper_expression? (g : Group) :
    (∀ c ∈ g.leaves, c.Proper) → ∀ e, g.expression? = some e → e.Proper := by
  induction g using induct with
  | step g ih =>
    intro proper e h
    rw [leaves_eq] at proper
    obtain ⟨children, -, rfl, each⟩ := expression?_cases h
    refine Json.proper_arr.2 (List.forall_mem_cons.2 ⟨trivial, fun v hv => ?_⟩)
    obtain ⟨c, hc, written⟩ | ⟨x, hx, written⟩ := each v hv
    · exact Condition.proper_expression? (proper c (List.mem_append_left _ hc)) written
    · refine ih x hx (fun c hc => proper c (List.mem_append_right _ ?_)) v written
      exact List.mem_flatMap.2 ⟨x, hx, hc⟩

/-- An intact group with a complete condition below it has an expression. -/
theorem exists_of_complete (g : Group) : g.Intact → ∀ c ∈ g.leaves, c.Complete →
    ∃ e, g.expression? = some e := by
  induction g using induct with
  | step g ih =>
    intro hg c hc complete
    have written {i : Item} {v : Json} (hi : i ∈ g.children) (hv : i.expression? = some v) :
        ∃ e, g.expression? = some e := by
      rw [expression?_eq]
      have some := List.ne_nil_of_mem (List.mem_filterMap.2 ⟨i, hi, hv⟩)
      exact ⟨_, joined?_eq_some_iff.2 ⟨some, rfl⟩⟩
    rw [leaves_eq] at hc
    obtain own | below := List.mem_append.1 hc
    · obtain ⟨v, hv⟩ := Condition.exists_of_complete complete
      exact written (condition_mem_children hg own) hv
    · obtain ⟨x, hx, hc⟩ := List.mem_flatMap.1 below
      obtain ⟨v, hv⟩ := ih x hx (hg.of_mem (mem_family_of_mem hx)) c hc complete
      exact written (group_mem_children hg hx) hv

/-- A group that has an expression has a complete condition below it. -/
theorem complete_of_exists (g : Group) : ∀ e, g.expression? = some e →
    ∃ c ∈ g.leaves, c.Complete := by
  induction g using induct with
  | step g ih =>
    intro e h
    obtain ⟨children, some, rfl, each⟩ := expression?_cases h
    obtain ⟨v, hv⟩ := List.exists_mem_of_ne_nil children some
    rw [leaves_eq]
    obtain ⟨c, hc, written⟩ | ⟨x, hx, written⟩ := each v hv
    · exact ⟨c, List.mem_append_left _ hc, Condition.complete_of_expression? written⟩
    · obtain ⟨c, hc, complete⟩ := ih x hx v written
      exact ⟨c, List.mem_append_right _ (List.mem_flatMap.2 ⟨x, hx, hc⟩), complete⟩

/-- Nothing is written of an intact outline exactly if no condition in it is complete. -/
theorem expression?_eq_none_iff {g : Group} (hg : g.Intact) :
    g.expression? = none ↔ ∀ c ∈ g.leaves, ¬ c.Complete := by
  constructor
  · intro nothing c hc complete
    obtain ⟨e, written⟩ := exists_of_complete g hg c hc complete
    rw [nothing] at written
    cases written
  · intro incomplete
    cases written : g.expression? with
    | none => rfl
    | some e =>
      obtain ⟨c, hc, complete⟩ := complete_of_exists g e written
      exact absurd complete (incomplete c hc)

end Group

end FieldFilter
