import FieldFilter.Validation.Fault

/-!
The value of a condition against its field's type. An operator on lists takes an array of values
that each fit; the others take one value.
-/

namespace FieldFilter.Validation

/-- What a message calls the JSON type of a data type's values. -/
def expectedType (t : DataType) : String := if t.isNumeric then "number" else "string"

def checkScalar (field : String) (t : DataType) (op : Operator) (value : Json) :
    Except Fault Unit :=
  let wrongType := Fault.wrongValueType (shownText field) t op (expectedType t) (shown value)
  if t.isNumeric then
    if value.isNumber then .ok () else .error wrongType
  else
    match value with
    | .str s =>
      match t.format? with
      | none => .ok ()
      | some format =>
        if fitsFormat format.toList s.toList then .ok ()
        else .error (.wrongFormat (shownText field) t format (shown value))
    | _ => .error wrongType

/-- The first value of a list that does not fit decides. -/
def checkScalars (field : String) (t : DataType) (op : Operator) : List Json → Except Fault Unit
  | [] => .ok ()
  | v :: rest =>
    match checkScalar field t op v with
    | .ok () => checkScalars field t op rest
    | .error fault => .error fault

def checkValue (field : String) (t : DataType) (op : Operator) (value : Json) :
    Except Fault Unit :=
  match op.valueKind with
  | .none => .ok ()
  | .scalar => checkScalar field t op value
  | .list =>
    match value with
    | .arr items => checkScalars field t op items
    | _ => .error (.wrongValueType (shownText field) t op "array" (shown value))

end FieldFilter.Validation
