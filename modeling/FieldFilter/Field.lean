import FieldFilter.Json.Decode
import FieldFilter.Json.Reader
import FieldFilter.Operator

/-!
Fields that a filter may name.
-/

namespace FieldFilter

structure Field where
  key : String
  type : DataType
  id : Option Nat
  displayName : Option String
  deriving DecidableEq, Repr

namespace Field

/-- What a user sees: the display name, or else the key. -/
def label (f : Field) : String := f.displayName.getD f.key

/-- The first field with the given key. -/
def find? (fields : List Field) (key : String) : Option Field := fields.find? (·.key == key)

def ofRaw? (r : Raw) : Option Field :=
  match r.record? ["key", "datatype", "id", "display_name"] 2 with
  | some [some key, some type, id, name] => do
    let key ← key.text?
    let type ← type.case? DataType.ofName?
    let id ← Raw.optional? Raw.word? id
    let name ← Raw.optional? Raw.text? name
    some ⟨key, type, id, name⟩
  | _ => none

/-- Reads a field from a text. -/
def read? (text : String) : Option Field := (Raw.read? none text).bind ofRaw?

def toJson (f : Field) : Json :=
  .obj [("datatype", .str f.type.name),
    ("display_name", f.displayName.elim .null .str),
    ("id", f.id.elim .null fun n => .int n),
    ("key", .str f.key)]

end Field

end FieldFilter
