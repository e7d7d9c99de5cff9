import FieldFilter.Event
import FieldFilter.Text

/-!
Reading expressions into outlines. Reading never fails: what is no group and no condition is left
out and reported. Ids are drawn in the order in which nodes stand, a group before its children, and
what is left out draws none.
-/

namespace FieldFilter

/-- An outline that was read, the next id to draw, and what was reported on the way. -/
structure Reading where
  root : Group
  next : NodeId
  events : List Event
  deriving Repr

namespace Reading

/-- The condition written by an operator and the elements after it. -/
def condition? (op : Operator) (arguments : List Json) (id : NodeId) : Option Condition :=
  match arguments with
  | [] => none
  | reference :: values =>
    (Expression.fieldName? reference).map fun field =>
      ⟨id, field, op, if op.isUnary then none else values.head?⟩

/-- The children of a group while they are read, last first, with the next id and the events. -/
structure Draft where
  conditions : List Condition
  groups : List Group
  order : List ChildRef
  next : NodeId
  events : List Event

namespace Draft

def start (next : NodeId) (events : List Event) : Draft := ⟨[], [], [], next, events⟩

def addCondition (d : Draft) (c : Condition) : Draft :=
  { d with conditions := c :: d.conditions, order := ⟨.condition, c.id⟩ :: d.order,
           next := d.next + 1 }

/-- Adds a group that was read with a draft of its own. -/
def addGroup (d inner : Draft) (g : Group) : Draft where
  conditions := d.conditions
  groups := g :: d.groups
  order := ⟨.group, g.id⟩ :: d.order
  next := inner.next
  events := .groupRead g.id g.junction g.order.length :: inner.events

def report (d : Draft) (e : Event) : Draft := { d with events := e :: d.events }

def group (d : Draft) (id : NodeId) (j : Junction) : Group :=
  ⟨id, j, d.conditions.reverse, d.groups.reverse, d.order.reverse⟩

end Draft

mutual

/-- Reads the element at `index` of the group `parent` into the group's draft. -/
def element (parent : NodeId) (index : Nat) (d : Draft) : Json → Draft
  | .arr (.str token :: arguments) =>
    match Expression.headOfToken token with
    | .group j =>
      let inner := elements d.next 1 (.start (d.next + 1) d.events) arguments
      d.addGroup inner (inner.group d.next j)
    | .condition op =>
      match condition? op arguments d.next with
      | some c => d.addCondition c
      | none => d.report (.conditionSkipped parent index)
    | _ => d.report (.elementSkipped parent index (shown (.arr (.str token :: arguments))))
  | v => d.report (.elementSkipped parent index (shown v))

/-- Reads the elements of the group `parent` from `index` on. -/
def elements (parent : NodeId) (index : Nat) (d : Draft) : List Json → Draft
  | [] => d
  | v :: rest => elements parent (index + 1) (element parent index d v) rest

end

/-- The outline of a single condition, or of nothing, is a group of all. -/
def wrapped (id : NodeId) (cs : List Condition) : Group :=
  ⟨id, .all, cs, [], cs.map fun c => ⟨.condition, c.id⟩⟩

/-- Reads an expression, drawing ids from `next` on. -/
def ofExpression (e : Json) (next : NodeId) : Reading :=
  match Expression.head e, e with
  | .group j, .arr (_ :: arguments) =>
    let d := elements next 1 (.start (next + 1) []) arguments
    let root := d.group next j
    ⟨root, d.next, (.groupRead root.id j root.order.length :: d.events).reverse⟩
  | .condition op, .arr (_ :: arguments) =>
    match condition? op arguments (next + 1) with
    | some c => ⟨wrapped next [c], next + 2, []⟩
    | none => ⟨wrapped next [], next + 1, [.rootDropped op]⟩
  | .empty, _ => ⟨wrapped next [], next + 1, []⟩
  | _, _ => ⟨wrapped next [], next + 1, [.rootUnrecognised (shown e)]⟩

/-- Reads a text; a blank one is the filter that keeps everything. -/
def ofText? (text : String) (next : NodeId) : Option Reading :=
  if Text.isBlank text then some ⟨.empty next .all, next + 1, []⟩
  else (Json.read? text).map (ofExpression · next)

end Reading

end FieldFilter
