import FieldFilter.Outline.Search
import Std.Data.HashSet

/-!
Integrity. An outline is intact when no id occurs twice in it and every group orders exactly the
children that it holds. `checkIntegrity` reports the first flaw otherwise.
-/

namespace FieldFilter

inductive Flaw
  | duplicateId (id : NodeId)
  | lengthMismatch (group held ordered : Nat)
  | orderedTwice (group id : NodeId)
  | notHeld (group : NodeId) (kind : Kind) (id : NodeId)
  deriving DecidableEq, Repr

namespace Flaw

def name : Flaw → String
  | duplicateId .. => "DuplicateId"
  | lengthMismatch .. => "LengthMismatch"
  | orderedTwice .. => "DuplicateOrderEntry"
  | notHeld .. => "OrphanOrderEntry"

def message : Flaw → String
  | duplicateId id => s!"Node id {id} appears more than once"
  | lengthMismatch group held ordered =>
    s!"Group {group} holds {held} children but orders {ordered}"
  | orderedTwice group id => s!"Group {group} orders {id} twice"
  | notHeld group kind id => s!"Group {group} orders {kind.name} {id} which it does not hold"

end Flaw

namespace Group

/-- Whether a group holds the child that an entry stands for. -/
def holds (g : Group) (r : ChildRef) : Bool :=
  match r.kind with
  | .condition => g.conditions.any (·.id == r.id)
  | .group => g.groups.any (·.id == r.id)

/-- Checks the entries of an order from the first on, after those in `before`. -/
def checkOrder (g : Group) (before : Std.HashSet ChildRef) : List ChildRef → Except Flaw Unit
  | [] => .ok ()
  | r :: rest =>
    if before.contains r then .error (.orderedTwice g.id r.id)
    else if g.holds r then checkOrder g (before.insert r) rest
    else .error (.notHeld g.id r.kind r.id)

/-- Adds ids to those seen, unless one was seen before. -/
def checkFresh (seen : Std.HashSet NodeId) : List NodeId → Except Flaw (Std.HashSet NodeId)
  | [] => .ok seen
  | id :: rest =>
    if seen.contains id then .error (.duplicateId id) else checkFresh (seen.insert id) rest

/-- Checks one group, less its subgroups. -/
def checkOwn (seen : Std.HashSet NodeId) (g : Group) : Except Flaw (Std.HashSet NodeId) :=
  if seen.contains g.id then .error (.duplicateId g.id)
  else
    let held := g.conditions.length + g.groups.length
    if held ≠ g.order.length then .error (.lengthMismatch g.id held g.order.length)
    else
      match g.checkOrder ∅ g.order with
      | .error flaw => .error flaw
      | .ok () => checkFresh (seen.insert g.id) (g.conditions.map Condition.id)

mutual

/-- Checks a group and everything below it, after the ids in `seen`. -/
def checkFrom (seen : Std.HashSet NodeId) : Group → Except Flaw (Std.HashSet NodeId)
  | ⟨id, junction, conditions, groups, order⟩ =>
    match checkOwn seen ⟨id, junction, conditions, groups, order⟩ with
    | .error flaw => .error flaw
    | .ok seen => checkAllFrom seen groups

def checkAllFrom (seen : Std.HashSet NodeId) :
    List Group → Except Flaw (Std.HashSet NodeId)
  | [] => .ok seen
  | g :: rest =>
    match checkFrom seen g with
    | .error flaw => .error flaw
    | .ok seen => checkAllFrom seen rest

end

/-- Whether the outline is intact, or else its first flaw. -/
def checkIntegrity (g : Group) : Except Flaw Unit := (checkFrom ∅ g).map fun _ => ()

end Group

end FieldFilter
