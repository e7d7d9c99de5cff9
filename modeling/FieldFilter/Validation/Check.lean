import FieldFilter.Expression
import FieldFilter.Field
import FieldFilter.Validation.Value

/-!
Checking expressions. `check` says whether an expression is a filter over a list of fields, or which
fault is found first; `entered` lists the groups that the check goes into on its way. `checkText`
does the same for a text.
-/

namespace FieldFilter.Validation

def checkCondition (fields : List Field) (op : Operator) (arguments : List Json) :
    Except Fault Unit :=
  if arguments.length ≠ op.arity then .error (.wrongArity op arguments.length)
  else
    match arguments with
    | [] => .error (.wrongArity op 0)
    | reference :: values =>
      match Expression.fieldName? reference with
      | none => .error (.badFieldReference op (shown reference))
      | some name =>
        match Field.find? fields name with
        | none => .error (.unknownField (shownText name))
        | some field =>
          if op.supports field.type then
            match values with
            | [] => .ok ()
            | value :: _ => checkValue name field.type op value
          else .error (.unsupportedOperator op (shownText name) field.type)

mutual

/-- Checks an expression inside `depth` groups. -/
def checkAt (fields : List Field) (depth : Nat) : Json → Except Fault Unit
  | .arr [] => .ok ()
  | .arr (.str token :: rest) =>
    match Expression.headOfToken token with
    | .group j =>
      if Limits.filterNesting ≤ depth then
        .error (.nestingTooDeep (depth + 1) Limits.filterNesting)
      else if rest.isEmpty then .error (.emptyGroup j)
      else checkChildren fields (depth + 1) j 1 rest
    | .condition op => checkCondition fields op rest
    | _ => .error (.unknownOperator (shownText token))
  | .arr (v :: _) => .error (.unknownOperator (shown v))
  | v => .error (.notAnArray v.typeName)

/-- Checks the children of a group in turn, counting from `index`. -/
def checkChildren (fields : List Field) (depth : Nat) (j : Junction) (index : Nat) :
    List Json → Except Fault Unit
  | [] => .ok ()
  | child :: rest =>
    if child.isArray then
      match checkAt fields depth child with
      | .ok () => checkChildren fields depth j (index + 1) rest
      | .error fault => .error fault
    else .error (.childNotArray j index child.typeName)

end

/-- Whether an expression is a filter over the fields. -/
def check (fields : List Field) (e : Json) : Except Fault Unit := checkAt fields 0 e

def accepts (fields : List Field) (e : Json) : Bool := (check fields e).isOk

/-- Whether a text is a filter, and which. -/
def checkText (fields : List Field) (text : String) : Except Fault Json :=
  if Limits.textBytes < text.utf8ByteSize then
    .error (.textTooLong text.utf8ByteSize Limits.textBytes)
  else
    match Json.read? text with
    | none => .error .malformedText
    | some e =>
      match check fields e with
      | .ok () => .ok e
      | .error fault => .error fault

/-- A group that a check goes into. -/
structure Entered where
  junction : Junction
  children : Nat
  depth : Nat
  deriving DecidableEq, Repr

mutual

/-- Adds, in front of `done`, the groups that the check of an expression goes into, last first. -/
def enteredAt (fields : List Field) (depth : Nat) (done : List Entered) : Json → List Entered
  | .arr (.str token :: rest) =>
    match Expression.headOfToken token with
    | .group j =>
      if Limits.filterNesting ≤ depth || rest.isEmpty then done
      else enteredChildren fields (depth + 1) (⟨j, rest.length, depth + 1⟩ :: done) rest
    | _ => done
  | _ => done

/-- A check stops at the first child that has a fault. -/
def enteredChildren (fields : List Field) (depth : Nat) (done : List Entered) :
    List Json → List Entered
  | [] => done
  | child :: rest =>
    if child.isArray then
      if (checkAt fields depth child).isOk then
        enteredChildren fields depth (enteredAt fields depth done child) rest
      else enteredAt fields depth done child
    else done

end

/-- The groups that a check goes into, in order. -/
def entered (fields : List Field) (e : Json) : List Entered := (enteredAt fields 0 [] e).reverse

end FieldFilter.Validation
