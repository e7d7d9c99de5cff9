import FieldFilter.DataType

/-!
The words of filters: the operators of conditions and the junctions of groups. An operator's token,
its number of arguments, the kind of value it takes and the data types it supports are all read off
one table.
-/

namespace FieldFilter

inductive Operator
  | equal
  | notEqual
  | greater
  | less
  | greaterOrEqual
  | lessOrEqual
  | isIn
  | notIn
  | isNull
  | notNull
  | has
  | hasNot
  deriving DecidableEq, Repr

/-- What an operator compares a field with. -/
inductive ValueKind
  | none
  | scalar
  | list
  deriving DecidableEq, Repr

namespace Operator

/-- The operators in the order in which they are listed. -/
def all : List Operator :=
  [equal, notEqual, greater, less, greaterOrEqual, lessOrEqual, isIn, notIn, isNull, notNull, has,
    hasNot]

def token : Operator → String
  | equal => "=="
  | notEqual => "!="
  | greater => ">"
  | less => "<"
  | greaterOrEqual => ">="
  | lessOrEqual => "<="
  | isIn => "in"
  | notIn => "!in"
  | isNull => "is_null"
  | notNull => "!is_null"
  | has => "has"
  | hasNot => "!has"

/-- The operator with exactly the given token. -/
def ofToken? (s : String) : Option Operator := all.find? (·.token == s)

def valueKind : Operator → ValueKind
  | isIn | notIn => .list
  | isNull | notNull | has | hasNot => .none
  | _ => .scalar

/-- Whether the operator takes a field and nothing else. -/
def isUnary (op : Operator) : Bool := op.valueKind = .none

/-- The number of elements after the operator in a condition. -/
def arity (op : Operator) : Nat := if op.isUnary then 1 else 2

/-- Whether the operator asks for an order on the values. -/
def isOrdering : Operator → Bool
  | greater | less | greaterOrEqual | lessOrEqual => true
  | _ => false

/-- Texts are not ordered; all else goes with every type. -/
def supports (op : Operator) (t : DataType) : Bool := !(op.isOrdering && t = .string)

end Operator

/-- The tokens of the operators that support a type, as a message shows them. -/
def DataType.operatorList (t : DataType) : String :=
  ", ".intercalate ((Operator.all.filter (·.supports t)).map Operator.token)

/-- How a group joins its children. -/
inductive Junction
  | all
  | any
  deriving DecidableEq, Repr

namespace Junction

def token : Junction → String
  | all => "all"
  | any => "any"

def ofToken? (s : String) : Option Junction := [all, any].find? (·.token == s)

end Junction

theorem Operator.ofToken?_token (op : Operator) : ofToken? op.token = some op := by
  cases op <;> decide +kernel

theorem Junction.ofToken?_token (j : Junction) : ofToken? j.token = some j := by
  cases j <;> decide +kernel

/-- No word is both an operator and a junction. -/
theorem Junction.ofToken?_operator (op : Operator) : ofToken? op.token = none := by
  cases op <;> decide +kernel

end FieldFilter
