import FieldFilter.Outline.Basic

/-!
The expression of an outline. What is not complete is left out: conditions without a field, or
without the value that their operator takes, and groups of which nothing is left.
-/

namespace FieldFilter

/-- The expression of a complete condition. -/
def Condition.expression? (c : Condition) : Option Json :=
  if c.field.isEmpty then none
  else if c.op.isUnary then some (Expression.condition c.op c.field none)
  else
    match c.value with
    | none | some .null => none
    | some v => some (Expression.condition c.op c.field (some v))

namespace Group

/-- The group that joins the expressions of some children, if there are any. -/
def joined? (j : Junction) (children : List Json) : Option Json :=
  if children.isEmpty then none else some (Expression.group j children)

mutual

/-- The expression of a group; there is none when no condition below it is complete. -/
def expression? : Group → Option Json
  | ⟨_, junction, conditions, groups, order⟩ =>
    let written := expressions groups
    joined? junction <| order.filterMap fun r =>
      match r.kind with
      | .condition => (conditions.find? (·.id == r.id)).bind Condition.expression?
      | .group => (written.lookup r.id).join

/-- The expressions of some groups, under their ids. -/
def expressions : List Group → List (NodeId × Option Json)
  | [] => []
  | g :: rest => (g.id, expression? g) :: expressions rest

end

end Group

end FieldFilter
