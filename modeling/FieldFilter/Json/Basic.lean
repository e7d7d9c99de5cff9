import FieldFilter.Decimal.Binary

/-!
JSON values. Integers are kept apart from floats, and an object is a list of members. A value that
was read is proper: its integers fit a 64-bit word, its floats are in normal form, and the keys of
its objects ascend, so that each occurs once.
-/

namespace FieldFilter

inductive Json
  | null
  | bool (b : Bool)
  | int (z : Int)
  | real (x : Decimal.Binary)
  | str (s : String)
  | arr (items : List Json)
  | obj (members : List (String × Json))
  deriving Repr, Inhabited

namespace Json

/-- The name of a value's type in messages. -/
def typeName : Json → String
  | null => "null"
  | bool _ => "boolean"
  | int _ | real _ => "number"
  | str _ => "string"
  | arr _ => "array"
  | obj _ => "object"

def isNumber : Json → Bool
  | int _ | real _ => true
  | _ => false

def str? : Json → Option String
  | str s => some s
  | _ => none

def arr? : Json → Option (List Json)
  | arr items => some items
  | _ => none

def isArray (v : Json) : Bool := v.arr?.isSome

/-- The value of the member with the given key. -/
def member? (v : Json) (key : String) : Option Json :=
  match v with
  | obj members => members.lookup key
  | _ => none

/-- Keeps the last of neighbouring members with one key. -/
def keepLast : List (String × α) → List (String × α) → List (String × α)
  | done, [] => done.reverse
  | done, [m] => (m :: done).reverse
  | done, a :: b :: rest =>
    if a.1 = b.1 then keepLast done (b :: rest) else keepLast (a :: done) (b :: rest)

/-- Members in ascending order of their keys; of members with one key the last one stays. -/
def settle (members : List (String × α)) : List (String × α) :=
  keepLast [] (members.mergeSort fun a b => a.1 ≤ b.1)

mutual

/-- Whether a value is of the kind that a text can mean. -/
def Proper : Json → Prop
  | int z => -Decimal.signBit ≤ z ∧ z < Decimal.wordSize
  | real x => x.Normal
  | arr items => ProperAll items
  | obj members => members.Pairwise (fun a b => a.1 < b.1) ∧ ProperMembers members
  | _ => True

def ProperAll : List Json → Prop
  | [] => True
  | v :: rest => v.Proper ∧ ProperAll rest

def ProperMembers : List (String × Json) → Prop
  | [] => True
  | (_, v) :: rest => v.Proper ∧ ProperMembers rest

end

end Json

end FieldFilter
