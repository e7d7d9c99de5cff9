import FieldFilter.Proofs.Outline.Reading
import FieldFilter.Proofs.Outline.Written

/-!
# Reading an expression and writing it again

`normal? e` is what is left of an expression `e` that is read into an outline and written again: it
says for every element what is kept of it (`kept?`), without going by way of an outline
(`expression?_ofExpression`). Canonical expressions are kept as they are (`Plain.kept?`), and what
is left is canonical, so that nothing more is lost when it is read and written once more
(`written_normal`). All values of an outline that was read come from the expression
(`proper_ofExpression`).
-/

namespace FieldFilter

namespace Expression

/-- A condition with an operator, a field that has a name and, if the operator takes one, a value
other than null. More elements may follow. -/
inductive Complete : Json → Prop
  | unary {op : Operator} {name : String} (rest : List Json) : op.isUnary = true → name ≠ "" →
      Complete (.arr (.str op.token :: .arr [.str "get", .str name] :: rest))
  | binary {op : Operator} {name : String} {v : Json} (rest : List Json) : op.isUnary = false →
      name ≠ "" → v ≠ .null →
      Complete (.arr (.str op.token :: .arr [.str "get", .str name] :: v :: rest))

/-- An expression stands in another one as a child of groups. -/
inductive Occurs (c : Json) : Json → Prop
  | here : Occurs c c
  | inside (j : Junction) {v : Json} {children : List Json} : v ∈ children → Occurs c v →
      Occurs c (.arr (.str j.token :: children))

/-- What occurs in a condition, or in what is neither group nor condition, is that itself. -/
theorem Occurs.eq_of_head {c v : Json} (h : Occurs c v) (hv : ∀ j, head v ≠ .group j) : c = v := by
  cases h with
  | here => rfl
  | inside j => exact absurd (head_group j _) (hv j)

/-! ## The normal form -/

/-- What is kept of a condition, given its operator and the elements after it: the reference to a
field that has a name and, if the operator takes one, a value other than null. -/
def keptCondition? (op : Operator) : List Json → Option Json
  | .arr [.str "get", .str name] :: values =>
    if name = "" then none
    else if op.isUnary then some (.arr [.str op.token, .arr [.str "get", .str name]])
    else
      match values with
      | [] | .null :: _ => none
      | v :: _ => some (.arr [.str op.token, .arr [.str "get", .str name], v])
  | _ => none

mutual

/-- What is kept of an element: of a group its head with what is kept of its children, unless that
is nothing. -/
def kept? : Json → Option Json
  | .arr (.str token :: arguments) =>
    match headOfToken token with
    | .group _ =>
      if (keptEach arguments).isEmpty then none
      else some (.arr (.str token :: keptEach arguments))
    | .condition op => keptCondition? op arguments
    | _ => none
  | _ => none

def keptEach : List Json → List Json
  | [] => []
  | v :: rest => (kept? v).toList ++ keptEach rest

end

/-- The normal form of an expression. A condition by itself is put into a group of all. -/
def normal? (e : Json) : Option Json :=
  match head e with
  | .condition _ => (kept? e).map fun c => .arr [.str "all", c]
  | _ => kept? e

theorem normal?_condition {e : Json} {op : Operator} (h : head e = .condition op) :
    normal? e = (kept? e).map fun c => .arr [.str "all", c] := by
  rw [normal?, h]

theorem normal?_other {e : Json} (h : ∀ op, head e ≠ .condition op) : normal? e = kept? e := by
  unfold normal?
  split
  · rename_i known
    exact absurd known (h _)
  · rfl

section
variable {op : Operator} {token : String} {arguments : List Json}

theorem keptEach_eq (vs : List Json) : keptEach vs = vs.filterMap kept? := by
  induction vs with
  | nil => rfl
  | cons v rest ih =>
    rw [keptEach, ih, List.filterMap_cons]
    cases kept? v <;> rfl

theorem kept?_group {j : Junction} (known : headOfToken token = .group j) :
    kept? (.arr (.str token :: arguments)) = Group.joined? j (keptEach arguments) := by
  rw [kept?, known, Group.joined?, group, headOfToken_group_iff.1 known]

theorem kept?_condition (known : headOfToken token = .condition op) :
    kept? (.arr (.str token :: arguments)) = keptCondition? op arguments := by
  rw [kept?, known]

theorem kept?_other {v : Json} (hg : ∀ j, head v ≠ .group j) (hc : ∀ op, head v ≠ .condition op) :
    kept? v = none := by
  unfold kept?
  split
  · split
    · rename_i known
      exact absurd known (hg _)
    · rename_i known
      exact absurd known (hc _)
    · rfl
  · rfl

/-- What is kept of a condition is written of it once it is read, under whatever id. -/
theorem keptCondition?_eq (op : Operator) (arguments : List Json) (n : NodeId) :
    keptCondition? op arguments =
      (Reading.condition? op arguments n).bind Condition.expression? := by
  cases arguments with
  | nil => rfl
  | cons reference values =>
    cases named : fieldName? reference with
    | none =>
      rw [Reading.condition?, named]
      unfold keptCondition?
      split
      · rename_i split
        obtain ⟨rfl, -⟩ := List.cons.inj split
        exact nomatch named.symm.trans (fieldName?_fieldReference _)
      · rfl
    | some name =>
      obtain rfl := fieldName?_eq_some_iff.1 named
      simp only [Reading.condition?, named, Option.map_some, Option.bind_some,
        Condition.expression?, String.isEmpty_iff]
      simp only [fieldReference, getter, keptCondition?]
      by_cases empty : name = ""
      · rw [if_pos empty, if_pos empty]
      · rw [if_neg empty, if_neg empty]
        cases unary : op.isUnary with
        | true => simp [condition, fieldReference, getter, unary]
        | false =>
          simp only [Bool.false_eq_true, if_false]
          cases values with
          | nil => rfl
          | cons v rest => cases v <;> simp [condition, fieldReference, getter, unary]

end

/-- What is plain is kept as it is. -/
theorem Plain.kept? {e : Json} (h : Plain e) : kept? e = some e := by
  induction h with
  | unary unary named =>
    rw [kept?_condition (headOfToken_condition_iff.2 rfl)]
    simp only [keptCondition?, if_neg named, unary, if_true]
  | @binary op name v binary named other =>
    rw [kept?_condition (headOfToken_condition_iff.2 rfl)]
    simp only [keptCondition?, if_neg named, binary, Bool.false_eq_true, if_false]
  | @group j children some plain ih =>
    have all : keptEach children = children := by
      rw [keptEach_eq]
      exact (List.filterMap_congr ih).trans List.filterMap_some
    rw [kept?_group (headOfToken_group_iff.2 rfl), all]
    exact Group.joined?_eq_some_iff.2 ⟨some, rfl⟩

/-- Something is kept of a complete condition. -/
theorem Complete.kept? {c : Json} (h : Complete c) : kept? c ≠ none := by
  cases h with
  | unary rest unary named =>
    rw [kept?_condition (headOfToken_condition_iff.2 rfl)]
    simp [keptCondition?, named, unary]
  | binary rest binary named other =>
    rw [kept?_condition (headOfToken_condition_iff.2 rfl)]
    simp [keptCondition?, named, binary]

/-- Something is kept of what a complete condition occurs in. -/
theorem Occurs.kept? {c e : Json} (h : Occurs c e) (complete : Complete c) : kept? e ≠ none := by
  induction h with
  | here => exact complete.kept?
  | inside j hv _ ih =>
    obtain ⟨w, kept⟩ := Option.ne_none_iff_exists'.1 ih
    have some := List.ne_nil_of_mem (List.mem_filterMap.2 ⟨_, hv, kept⟩)
    rw [kept?_group (headOfToken_group_iff.2 rfl), keptEach_eq,
      Group.joined?_eq_some_iff.2 ⟨some, rfl⟩]
    exact Option.some_ne_none _

end Expression

namespace Reading

open FieldFilter.Group

/-- The expressions of some items. -/
def written (is : List Item) : List Json := is.filterMap Item.expression?

theorem written_cons (i : Item) (is : List Item) :
    written (i :: is) = i.expression?.toList ++ written is := by
  unfold written
  rw [List.filterMap_cons]
  cases i.expression? <;> rfl

/-- The group of the items that were read is written from them. -/
theorem Reads.expression?_group {vs : List Json} {is : List Item} {n k m : NodeId}
    (h : Reads n vs is m) (j : Junction) :
    (ofItems k j is).expression? = joined? j (written is) := by
  rw [expression?_eq, h.children_group]
  rfl

/-- The values of what is read come from the elements. -/
theorem Reads.proper {vs : List Json} {is : List Item} {n m : NodeId} (h : Reads n vs is m) :
    (∀ v ∈ vs, v.Proper) → ∀ i ∈ is, ∀ c ∈ i.leaves, c.Proper := by
  induction h with
  | nil => exact fun _ i hi => by cases hi
  | other _ _ _ ih => exact fun proper => ih (List.forall_mem_cons.1 proper).2
  | nameless _ _ _ ih => exact fun proper => ih (List.forall_mem_cons.1 proper).2
  | @condition token op arguments _ c _ _ _ known read _ ih =>
    intro proper
    obtain ⟨first, others⟩ := List.forall_mem_cons.1 proper
    refine List.forall_mem_cons.2 ⟨?_, ih others⟩
    intro d hd v hv
    obtain rfl := List.mem_singleton.1 hd
    obtain ⟨reference, values, field, rfl, -, rfl⟩ := condition?_eq_some read
    have listed : v ∈ values := by
      by_cases unary : op.isUnary = true
      · rw [if_pos unary] at hv
        cases hv
      · rw [if_neg unary] at hv
        exact List.mem_of_mem_head? hv
    exact Json.proper_arr.1 first v (by simp [listed])
  | group known inner _ ih ih' =>
    intro proper
    obtain ⟨first, others⟩ := List.forall_mem_cons.1 proper
    refine List.forall_mem_cons.2 ⟨?_, ih' others⟩
    intro c hc
    obtain ⟨i, hi, hc⟩ := List.mem_flatMap.1 ((leaves_ofItems _ _ _).mem_iff.1 hc)
    exact ih (List.forall_mem_cons.1 (Json.proper_arr.1 first)).2 i hi c hc

/-- The values of an outline that was read are parts of the expression. -/
theorem proper_ofExpression {e : Json} (h : e.Proper) (n : NodeId) :
    ∀ c ∈ (ofExpression e n).root.leaves, c.Proper := by
  obtain ⟨is, root, read⟩ := ofExpression_reads e n
  have elements : ∀ v ∈ (parts e).2, v.Proper := by
    obtain ⟨j, token, arguments, rfl, -, parts⟩ | ⟨op, -, parts⟩ | ⟨-, -, parts⟩ := parts_cases e
    · rw [parts]
      exact (List.forall_mem_cons.1 (Json.proper_arr.1 h)).2
    · rw [parts]
      exact List.forall_mem_singleton.2 h
    · rw [parts]
      exact fun v hv => by cases hv
  rw [root]
  intro c hc
  obtain ⟨i, hi, hc⟩ := List.mem_flatMap.1 ((leaves_ofItems _ _ _).mem_iff.1 hc)
  exact read.proper elements i hi c hc

/-- What is written of the items read from some elements is what is kept of those. -/
theorem Reads.written_eq {vs : List Json} {is : List Item} {n m : NodeId} (h : Reads n vs is m) :
    written is = Expression.keptEach vs := by
  induction h with
  | nil => rfl
  | other hg hc _ ih =>
    rw [Expression.keptEach, Expression.kept?_other hg hc, ih]
    rfl
  | @nameless _ op arguments _ _ n _ known unread _ ih =>
    rw [Expression.keptEach, Expression.kept?_condition known,
      Expression.keptCondition?_eq op arguments n, unread, ih]
    rfl
  | @condition _ op arguments _ _ _ n _ known read _ ih =>
    rw [written_cons, Expression.keptEach, Expression.kept?_condition known,
      Expression.keptCondition?_eq op arguments n, read, ih]
    rfl
  | @group _ j _ _ _ _ _ _ _ known inner _ ih ih' =>
    rw [written_cons, Item.expression?, inner.expression?_group j, ih, ih', Expression.keptEach,
      Expression.kept?_group known]

/-- An outline that was read is written from the items of its parts. -/
theorem expression?_root (e : Json) (n : NodeId) :
    ∃ is, Reads (n + 1) (parts e).2 is (ofExpression e n).next ∧
      (ofExpression e n).root.expression? = joined? (parts e).1 (written is) := by
  obtain ⟨is, root, read⟩ := ofExpression_reads e n
  exact ⟨is, read, root ▸ read.expression?_group (parts e).1⟩

/-- Read and written again, an expression is in its normal form, whatever ids are drawn. -/
theorem expression?_ofExpression (e : Json) (n : NodeId) :
    (ofExpression e n).root.expression? = Expression.normal? e := by
  obtain ⟨is, read, root⟩ := expression?_root e n
  rw [root, read.written_eq]
  obtain ⟨j, token, arguments, rfl, known, parts⟩ | ⟨op, known, parts⟩ | ⟨hg, hc, parts⟩ :=
    parts_cases e
  · have head : Expression.head (.arr (.str token :: arguments)) = .group j := known
    rw [parts, Expression.normal?_other (by simp [head]), Expression.kept?_group known]
  · rw [parts, Expression.normal?_condition known, Expression.keptEach, Expression.keptEach]
    cases Expression.kept? e <;> rfl
  · rw [parts, Expression.normal?_other hc, Expression.kept?_other hg hc]
    rfl

/-- A canonical expression is the one that its outline is written as. -/
theorem expression?_of_canonical {e : Json} (h : Expression.Canonical e) (n : NodeId) :
    (ofExpression e n).root.expression? = some e := by
  obtain ⟨plain, j, children, rfl⟩ := h
  have head : Expression.head (.arr (.str j.token :: children)) = .group j :=
    Expression.head_group j children
  rw [expression?_ofExpression, Expression.normal?_other (by simp [head]), plain.kept?]

/-- If a complete condition occurs in an expression, its outline can be written. -/
theorem exists_of_occurs {e c : Json} (complete : Expression.Complete c)
    (occurs : Expression.Occurs c e) (n : NodeId) :
    ∃ v, (ofExpression e n).root.expression? = some v := by
  obtain ⟨v, kept⟩ := Option.ne_none_iff_exists'.1 (occurs.kept? complete)
  rw [expression?_ofExpression, Expression.normal?, kept]
  split
  · exact ⟨_, rfl⟩
  · exact ⟨v, rfl⟩

/-- Read into an outline, whatever ids are drawn, and written again, an expression comes out in its
normal form. A normal form comes out as it is, and so do exactly the canonical expressions. -/
theorem written_normal (e : Json) (n : NodeId) :
    (ofExpression e n).root.expression? = Expression.normal? e ∧
      (∀ v, Expression.normal? e = some v → ∀ m, (ofExpression v m).root.expression? = some v) ∧
      ((ofExpression e n).root.expression? = some e ↔ Expression.Canonical e) := by
  refine ⟨expression?_ofExpression e n, fun v normal m => ?_, fun same => ?_, fun canonical => ?_⟩
  · rw [← expression?_ofExpression e n] at normal
    exact expression?_of_canonical (canonical_expression? normal) m
  · exact canonical_expression? same
  · exact expression?_of_canonical canonical n

/-- A group with children of which not all is kept. -/
def ragged : Json :=
  .arr [.str "any", .arr [], .str "stray",
    .arr [.str "==", Expression.fieldReference "a", .int 1, .int 2],
    .arr [.str "==", Expression.fieldReference "b", .null],
    .arr [.str "has", Expression.fieldReference ""],
    .arr [.str "all", .arr [.str "like", Expression.fieldReference "a"]],
    .arr [.str "all", .arr [.str "has", Expression.fieldReference "b", .int 7]]]

/-- What is left of it. -/
def trimmed : Json :=
  .arr [.str "any", .arr [.str "==", Expression.fieldReference "a", .int 1],
    .arr [.str "all", .arr [.str "has", Expression.fieldReference "b"]]]

theorem written_normal_ragged : Expression.normal? ragged = some trimmed ∧
    (ofExpression ragged 1).root.expression? = some trimmed ∧
    (ofExpression trimmed 9).root.expression? = some trimmed ∧ Expression.Canonical trimmed := by
  have normal : Expression.normal? ragged = some trimmed := rfl
  obtain ⟨comes, again, -⟩ := written_normal ragged 1
  obtain ⟨-, -, canonical⟩ := written_normal trimmed 9
  exact ⟨normal, comes.trans normal, again trimmed normal 9, canonical.1 (again trimmed normal 9)⟩

end Reading

end FieldFilter
