import FieldFilter.Outline.Search

/-!
Destinations: where among the children of a group a node is put.
-/

namespace FieldFilter

/-- Where a moved node goes: beside an anchor, or without one to the start or the end. -/
structure Destination where
  group : NodeId
  anchor : Option NodeId
  side : Side
  deriving DecidableEq, Repr

namespace Destination

/-- The place among the children of the group. An anchor that is not there means the end. -/
def index? (d : Destination) (group : Group) : Option Nat :=
  match d.anchor with
  | none =>
    match d.side with
    | .before => some 0
    | .after => none
  | some anchor =>
    (group.position? anchor).map fun i =>
      match d.side with
      | .before => i
      | .after => i + 1

end Destination

def Destination.toJson (d : Destination) : Json :=
  .obj [("anchor_item_id", d.anchor.elim .null fun id => .int id),
    ("position", .str d.side.name),
    ("target_group_id", .int d.group)]

end FieldFilter
