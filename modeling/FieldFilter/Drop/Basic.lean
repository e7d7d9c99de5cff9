import FieldFilter.Event
import FieldFilter.Outline.Destination

/-!
Drops. When a dragged item is let go, the view reports what lay under it and which items it touched,
with their rectangles on the screen. `Drop.resolve` decides from that where the item goes.
-/

namespace FieldFilter

/-- A rectangle on the screen; `top` grows downwards. -/
structure Rect where
  top : Float
  left : Float
  width : Float
  height : Float
  deriving Repr

/-- The height of the middle of a rectangle. -/
def Rect.middle (r : Rect) : Float := r.top + r.height / 2

/-- The dragged item and the group that it was dragged from. -/
structure Dragged where
  id : NodeId
  kind : Kind
  group : NodeId
  deriving DecidableEq, Repr

/-- An item on the screen and the group that holds it. -/
structure Touched where
  id : NodeId
  kind : Kind
  group : NodeId
  rect : Rect
  deriving Repr

structure Drop where
  dragged : Dragged
  /-- where the dragged item was let go -/
  rect : Option Rect
  /-- the item under the pointer -/
  target : Option Touched
  /-- the items that the dragged one touched -/
  touched : List Touched
  deriving Repr

namespace Drop

/-- The side of an item on which something at the height `y` falls. -/
def sideOf (y : Float) (rect : Rect) : Side := if y < rect.middle then .before else .after

/-- The touched children of a group, with their places, as they stand. -/
def candidates (drop : Drop) (group : Group) : List (Nat × Touched) :=
  let inGroup := drop.touched.filter fun t =>
    t.group = group.id && t.id ≠ drop.dragged.id && t.id ≠ group.id
  let placed := inGroup.filterMap fun t => (group.position? t.id).map fun i => (i, t)
  placed.mergeSort fun a b => a.1 ≤ b.1

/-- Where a drop over a group puts the item, when it touches some of the group's children: beside a
single one, between two, and at the end if there are more. -/
def destinationAmong (y : Float) (target : Touched) : List (Nat × Touched) → Destination
  | [] => ⟨target.id, none, sideOf y target.rect⟩
  | [(_, only)] => ⟨target.id, some only.id, sideOf y only.rect⟩
  | [(_, first), _] => ⟨target.id, some first.id, .after⟩
  | _ => ⟨target.id, none, .after⟩

/-- Where a drop puts the item, if anywhere, and what is reported. An item whose own rectangle is
not known counts as level with its target. -/
def resolve (drop : Drop) (root : Group) : Option Destination × List Event :=
  match drop.target with
  | none => (none, [])
  | some target =>
    if target.id = drop.dragged.id then (none, [])
    else
      let y := (drop.rect.getD target.rect).middle
      match target.kind with
      | .condition => (some ⟨target.group, some target.id, sideOf y target.rect⟩, [])
      | .group =>
        match root.findGroup? target.id with
        | none => (none, [])
        | some group =>
          let candidates := drop.candidates group
          let d := destinationAmong y target candidates
          (some d, [.dropResolved target.id candidates.length d.side])

end Drop

end FieldFilter
