import FieldFilter.Outline.Destination
import FieldFilter.Session.Edit

/-!
Moving nodes. A move takes a node out of its group and puts it among the children of another group,
or of the same one. Whatever could stop it is found out before the node is taken out.
-/

namespace FieldFilter.Session

/-- What stops a node from moving into a group. -/
def obstacle? (s : Session) (kind : Kind) (id target : NodeId) : Option Event :=
  match s.root.findGroup? target with
  | none => some (.moveToMissing target)
  | some _ =>
    match kind with
    | .condition =>
      if (s.root.findCondition? id).isNone then some (.moveMissing .condition id) else none
    | .group =>
      if id = s.root.id then some (.moveRoot id)
      else
        match s.root.findGroup? id with
        | none => some (.moveMissing .group id)
        | some moved =>
          if (moved.findGroup? target).isSome then some (.moveIntoItself id target)
          else if s.preferences.maxNesting < (s.root.depth? target).getD 1 + moved.height then
            some (.moveTooDeep id target s.preferences.maxNesting)
          else none

/-- The report of an anchor that is not among the children of the target. -/
def anchorReport (d : Destination) (index : Option Nat) : List Event :=
  match d.anchor, index with
  | some anchor, none => [.anchorMissing anchor d.group]
  | _, _ => []

/-- Moves a node. -/
def relocate (s : Session) (kind : Kind) (id : NodeId) (d : Destination) : Outcome Bool :=
  if d.anchor = some id then s.refuse false []
  else
    match s.obstacle? kind id d.group with
    | some obstacle => s.refuse false [obstacle]
    | none =>
      match s.root.detach kind id with
      | none => s.refuse false []
      | some (rest, origin, item) =>
        let index := (rest.findGroup? d.group).bind d.index?
        match rest.modifyGroup d.group (Group.insertChild item index) with
        | none =>
          -- the node goes back to its group, as the last child
          let root := (rest.modifyGroup origin (Group.insertChild item none)).getD rest
          { s with root := root }.refuse false [.targetVanished id d.group]
        | some root =>
          let events := anchorReport d index ++ [.moved kind id origin d.group d.side]
          (({ s with root := root }.settle .move id).giving true).after events

/-- The destination before an anchor, or at the end of a group. -/
def beforeOrLast (target : NodeId) (anchor : Option NodeId) : Destination :=
  ⟨target, anchor, if anchor.isSome then .before else .after⟩

def moveCondition (s : Session) (id target : NodeId) (anchor : Option NodeId) : Outcome Bool :=
  s.relocate .condition id (beforeOrLast target anchor)

def moveGroup (s : Session) (id target : NodeId) (anchor : Option NodeId) : Outcome Bool :=
  s.relocate .group id (beforeOrLast target anchor)

/-- Moves an item that was dragged out of the group `reported`. The outline decides where the item
really is. -/
def moveItem (s : Session) (kind : Kind) (id reported : NodeId) (d : Destination) : Outcome Bool :=
  if d.anchor = some id then s.refuse false []
  else
    let stale := match s.root.findParent? kind id with
      | some parent => if parent.id = reported then [] else [Event.staleSource id reported]
      | none => []
    (s.relocate kind id d).after stale

end FieldFilter.Session
