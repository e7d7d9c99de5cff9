import FieldFilter.Code
import FieldFilter.Json.Printer
import FieldFilter.Limits
import FieldFilter.Operator
import FieldFilter.Text

/-!
Faults: the ways in which an expression is not a filter, each with the part of the input that shows
it. Input is carried clipped, so a fault stays short however large the expression is.
-/

namespace FieldFilter

/-- A piece of text as a message shows it. -/
def shownText (s : String) : String := Text.clip Limits.shownLength s

/-- A value as a message shows it. -/
def shown (v : Json) : String := shownText v.compact

inductive Fault
  /-- a text that is no JSON; what its reader has to say about it is left out, here and in the
  message -/
  | malformedText
  | textTooLong (length limit : Nat)
  | notAnArray (found : String)
  | emptyGroup (junction : Junction)
  | childNotArray (junction : Junction) (index : Nat) (found : String)
  | unknownOperator (head : String)
  | wrongArity (op : Operator) (found : Nat)
  | badFieldReference (op : Operator) (found : String)
  | nestingTooDeep (depth limit : Nat)
  | unknownField (field : String)
  | unsupportedOperator (op : Operator) (field : String) (type : DataType)
  | wrongValueType (field : String) (type : DataType) (op : Operator) (expected value : String)
  | wrongFormat (field : String) (type : DataType) (format value : String)
  deriving DecidableEq, Repr

namespace Fault

def name : Fault → String
  | malformedText => "MalformedJson"
  | textTooLong .. => "ExpressionTooLong"
  | notAnArray .. => "NotAnArray"
  | emptyGroup .. => "EmptyGroup"
  | childNotArray .. => "GroupChildNotArray"
  | unknownOperator .. => "UnknownOperator"
  | wrongArity .. => "WrongArity"
  | badFieldReference .. => "InvalidFieldReference"
  | nestingTooDeep .. => "NestingTooDeep"
  | unknownField .. => "UnknownField"
  | unsupportedOperator .. => "UnsupportedOperator"
  | wrongValueType .. => "InvalidValueType"
  | wrongFormat .. => "InvalidPattern"

def code : Fault → Code
  | malformedText => .malformedText
  | textTooLong .. => .textTooLong
  | notAnArray .. => .notAnArray
  | emptyGroup .. => .emptyGroup
  | childNotArray .. => .childNotArray
  | unknownOperator .. => .unknownOperator
  | wrongArity .. => .wrongArity
  | badFieldReference .. => .badFieldReference
  | nestingTooDeep .. => .nestingTooDeep
  | unknownField .. => .unknownField
  | unsupportedOperator .. => .unsupportedOperator
  | wrongValueType .. => .wrongValueType
  | wrongFormat .. => .wrongFormat

/-- Whether the array grammar itself is broken, rather than the use of fields and values. -/
def isShape (f : Fault) : Bool := f.code.category = .shape

def message : Fault → String
  | malformedText => "Filter expression is not valid JSON"
  | textTooLong length limit =>
    s!"Filter expression is {length} bytes, maximum allowed is {limit}"
  | notAnArray found => s!"Filter expression must be an array, found {found}"
  | emptyGroup j => s!"Logical group '{j.token}' must contain at least one expression"
  | childNotArray j index found =>
    s!"Element {index} of logical group '{j.token}' must be an array, found {found}"
  | unknownOperator head => s!"Unknown operator '{head}'"
  | wrongArity op found =>
    s!"Operator '{op.token}' expects {op.arity} argument(s), found {found}"
  | badFieldReference op found =>
    s!"Operator '{op.token}' expects a field reference [\"get\", <name>], found {found}"
  | nestingTooDeep depth limit =>
    s!"Filter expression nesting depth {depth} exceeds maximum of {limit}"
  | unknownField field => s!"Unknown field '{field}'"
  | unsupportedOperator op field type =>
    s!"Operator '{op.token}' is not supported for field '{field}' of type {type.name} " ++
      s!"(supported: {type.operatorList})"
  | wrongValueType field type op expected value =>
    s!"Invalid value {value} for field '{field}' of type {type.name} " ++
      s!"with operator '{op.token}': expected {expected}"
  | wrongFormat field type format value =>
    s!"Invalid value {value} for field '{field}' of type {type.name}: expected format {format}"

end Fault

end FieldFilter
