import FieldFilter.Expression

/-!
Outlines: filters as trees of groups and conditions, the form in which they are edited. A group
keeps its conditions and its subgroups apart, in the order in which they arrived, and besides them
the order in which its children stand. Nothing in the type says that the three agree: trees in which
they do not can be built, and `Outline.Integrity` tells them apart.
-/

namespace FieldFilter

abbrev NodeId := Nat

/-- The two kinds of node. -/
inductive Kind
  | condition
  | group
  deriving DecidableEq, Repr, Hashable

namespace Kind

def name : Kind → String
  | condition => "condition"
  | group => "group"

def ofName? (s : String) : Option Kind := [condition, group].find? (·.name == s)

end Kind

/-- The side of a sibling, or of all siblings, on which an item is put. -/
inductive Side
  | before
  | after
  deriving DecidableEq, Repr

namespace Side

def name : Side → String
  | before => "before"
  | after => "after"

def ofName? (s : String) : Option Side := [before, after].find? (·.name == s)

end Side

/-- A condition on one field. It has no value if its operator takes none or none was entered. -/
structure Condition where
  id : NodeId
  field : String
  op : Operator
  value : Option Json
  deriving Repr

/-- A change to some of the parts of a condition. -/
structure Patch where
  field : Option String
  op : Option Operator
  /-- the value to set, or `none` to take the value away -/
  value : Option (Option Json)
  deriving Repr

def Patch.empty : Patch := ⟨none, none, none⟩

def Patch.isEmpty (p : Patch) : Bool := p.field.isNone && p.op.isNone && p.value.isNone

def Condition.apply (p : Patch) (c : Condition) : Condition where
  id := c.id
  field := p.field.getD c.field
  op := p.op.getD c.op
  value := p.value.getD c.value

/-- An entry of the order of a group's children. -/
structure ChildRef where
  kind : Kind
  id : NodeId
  deriving DecidableEq, Repr, Hashable

/-- A group of conditions and groups. -/
structure Group where
  id : NodeId
  junction : Junction
  conditions : List Condition
  groups : List Group
  order : List ChildRef
  deriving Repr

/-- A node with everything below it. -/
inductive Item
  | condition (c : Condition)
  | group (g : Group)
  deriving Repr

namespace Item

def id : Item → NodeId
  | condition c => c.id
  | group g => g.id

def kind : Item → Kind
  | condition _ => .condition
  | group _ => .group

def ref (i : Item) : ChildRef := ⟨i.kind, i.id⟩

end Item

namespace Group

def empty (id : NodeId) (j : Junction) : Group := ⟨id, j, [], [], []⟩

/-- The child that an entry of the order stands for. -/
def child? (g : Group) (r : ChildRef) : Option Item :=
  match r.kind with
  | .condition => (g.conditions.find? (·.id == r.id)).map .condition
  | .group => (g.groups.find? (·.id == r.id)).map .group

/-- The children as they stand. -/
def children (g : Group) : List Item := g.order.filterMap g.child?

/-- The place of a child among its siblings, of whichever kind it is. -/
def position? (g : Group) (id : NodeId) : Option Nat := g.order.findIdx? (·.id == id)

mutual

/-- The most groups on a path from this one down. -/
def height : Group → Nat
  | ⟨_, _, _, groups, _⟩ => 1 + heightOfAll groups

def heightOfAll : List Group → Nat
  | [] => 0
  | g :: rest => max g.height (heightOfAll rest)

end

mutual

/-- The number of nodes, this one included. -/
def size : Group → Nat
  | ⟨_, _, conditions, groups, _⟩ => 1 + conditions.length + sizeOfAll groups

def sizeOfAll : List Group → Nat
  | [] => 0
  | g :: rest => g.size + sizeOfAll rest

end

end Group

/-! ## JSON form -/

def ChildRef.toJson (r : ChildRef) : Json := .obj [("id", .int r.id), ("type", .str r.kind.name)]

def Condition.toJson (c : Condition) : Json :=
  .obj [("field", .str c.field), ("id", .int c.id), ("operator", .str c.op.token),
    ("value", c.value.getD .null)]

mutual

def Group.toJson : Group → Json
  | ⟨id, junction, conditions, groups, order⟩ =>
    .obj [("children_order", .arr (order.map ChildRef.toJson)),
      ("conditions", .arr (conditions.map Condition.toJson)),
      ("groups", .arr (Group.allToJson groups)),
      ("id", .int id),
      ("operator", .str junction.token)]

def Group.allToJson : List Group → List Json
  | [] => []
  | g :: rest => g.toJson :: Group.allToJson rest

end

end FieldFilter
