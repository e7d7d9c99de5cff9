/-!
Codes. Every error and every success has a code, and every code a category, a severity and a
description.
-/

namespace FieldFilter

inductive Category
  | system
  | shape
  | semantic
  | editor
  | success
  | unknown
  deriving DecidableEq, Repr

def Category.name : Category → String
  | system => "System"
  | shape => "Shape"
  | semantic => "Semantic"
  | editor => "Editor"
  | success => "Success"
  | unknown => "Unknown"

inductive Severity
  | critical
  | high
  | medium
  | low
  deriving DecidableEq, Repr

namespace Severity

def name : Severity → String
  | critical => "Critical"
  | high => "High"
  | medium => "Medium"
  | low => "Low"

/-- Greater severities have smaller ranks. -/
def rank : Severity → Nat
  | critical => 0
  | high => 1
  | medium => 2
  | low => 3

end Severity

inductive Code
  | internalError
  | badConfiguration
  | malformedText
  | textTooLong
  | notAnArray
  | emptyGroup
  | childNotArray
  | unknownOperator
  | wrongArity
  | badFieldReference
  | nestingTooDeep
  | unknownField
  | unsupportedOperator
  | wrongValueType
  | wrongFormat
  | invalidState
  | loadFailed
  | switchFailed
  | notRepresentable
  | expressionAccepted
  | filterLoaded
  | tabSwitched
  | itemMoved
  deriving DecidableEq, Repr

/-- What is known of a code. -/
structure Code.Entry where
  text : String
  category : Category
  severity : Severity
  description : String
  deriving Repr

namespace Code

def all : List Code :=
  [internalError, badConfiguration, malformedText, textTooLong, notAnArray, emptyGroup,
    childNotArray, unknownOperator, wrongArity, badFieldReference, nestingTooDeep, unknownField,
    unsupportedOperator, wrongValueType, wrongFormat, invalidState, loadFailed, switchFailed,
    notRepresentable, expressionAccepted, filterLoaded, tabSwitched, itemMoved]

def entry : Code → Entry
  | internalError => ⟨"ERR001", .system, .critical, "Internal engine error"⟩
  | badConfiguration => ⟨"ERR002", .system, .high, "Invalid configuration"⟩
  | malformedText => ⟨"E100", .shape, .medium, "Expression text is not valid JSON"⟩
  | textTooLong => ⟨"E101", .shape, .medium, "Expression text exceeds the maximum length"⟩
  | notAnArray => ⟨"E102", .shape, .medium, "Expression is not a JSON array"⟩
  | emptyGroup => ⟨"E103", .shape, .medium, "Logical group has no children"⟩
  | childNotArray => ⟨"E104", .shape, .medium, "Logical group child is not an array"⟩
  | unknownOperator => ⟨"E105", .shape, .medium, "Unknown condition operator"⟩
  | wrongArity => ⟨"E106", .shape, .medium, "Wrong number of operator arguments"⟩
  | badFieldReference => ⟨"E107", .shape, .medium, "Malformed field reference"⟩
  | nestingTooDeep => ⟨"E108", .shape, .high, "Expression nesting exceeds the maximum depth"⟩
  | unknownField => ⟨"E120", .semantic, .medium, "Field is not defined"⟩
  | unsupportedOperator =>
    ⟨"E121", .semantic, .medium, "Operator not supported for field data type"⟩
  | wrongValueType => ⟨"E122", .semantic, .medium, "Value type does not match field data type"⟩
  | wrongFormat => ⟨"E123", .semantic, .medium, "Value does not match the data type pattern"⟩
  | invalidState =>
    ⟨"E200", .editor, .low, "Representation requested while editor state is invalid"⟩
  | loadFailed => ⟨"E201", .editor, .low, "Filter text could not be loaded"⟩
  | switchFailed => ⟨"E202", .editor, .low, "Raw text could not be applied to the constructor"⟩
  | notRepresentable => ⟨"E203", .editor, .medium, "Filter tree could not be serialized"⟩
  | expressionAccepted => ⟨"I001", .success, .low, "Expression validated"⟩
  | filterLoaded => ⟨"I002", .success, .low, "Filter loaded"⟩
  | tabSwitched => ⟨"I003", .success, .low, "Editor tab switched"⟩
  | itemMoved => ⟨"I004", .success, .low, "Filter item moved"⟩

def text (c : Code) : String := c.entry.text

def category (c : Code) : Category := c.entry.category

/-- Failures of the system itself cannot be recovered from. -/
def recoverable (c : Code) : Bool := c.category ≠ .system

def ofText? (s : String) : Option Code := all.find? (·.text == s)

/-- The category of a text that may be no code. -/
def categoryOf (code : Option Code) : Category := code.elim .unknown category

def severityOf (code : Option Code) : Severity := code.elim .high (·.entry.severity)

def recoverableOf (code : Option Code) : Bool := code.elim false recoverable

def descriptionOf (code : Option Code) : String := code.elim "Unknown error" (·.entry.description)

theorem ofText?_text (c : Code) : ofText? c.text = some c := by
  cases c <;> decide +kernel

end Code

end FieldFilter
