import FieldFilter.Operator

/-!
The written form of filters: nested arrays. A group is a junction followed by groups and
conditions; a condition is an operator, a field reference and, for most operators, a value. The
empty array is the filter that keeps everything.
-/

namespace FieldFilter.Expression

/-- The first element of a field reference. -/
def getter : String := "get"

/-- What an expression is, told by its first element alone. -/
inductive Head
  | empty
  | group (junction : Junction)
  | condition (op : Operator)
  | unknown
  deriving DecidableEq, Repr

def headOfToken (token : String) : Head :=
  match Junction.ofToken? token with
  | some j => .group j
  | none =>
    match Operator.ofToken? token with
    | some op => .condition op
    | none => .unknown

def head : Json → Head
  | .arr [] => .empty
  | .arr (.str token :: _) => headOfToken token
  | _ => .unknown

/-- The field named by a field reference. -/
def fieldName? : Json → Option String
  | .arr [.str g, .str name] => if g = getter then some name else none
  | _ => none

def fieldReference (name : String) : Json := .arr [.str getter, .str name]

def empty : Json := .arr []

/-- The condition on a field. A value is written for the operators that take one, null if there is
none. -/
def condition (op : Operator) (field : String) (value : Option Json) : Json :=
  .arr (.str op.token :: fieldReference field ::
    if op.isUnary then [] else [value.getD .null])

def group (j : Junction) (children : List Json) : Json := .arr (.str j.token :: children)

theorem fieldName?_fieldReference (name : String) : fieldName? (fieldReference name) = some name :=
  by simp [fieldName?, fieldReference]

@[simp] theorem head_condition (op : Operator) (field : String) (value : Option Json) :
    head (condition op field value) = .condition op := by
  simp [head, condition, headOfToken, Junction.ofToken?_operator, Operator.ofToken?_token]

@[simp] theorem head_group (j : Junction) (children : List Json) :
    head (group j children) = .group j := by
  simp [head, group, headOfToken, Junction.ofToken?_token]

end FieldFilter.Expression
