import FieldFilter.Drop.Basic
import FieldFilter.Session.Move
import FieldFilter.Session.Tabs

/-!
Calls: all that can be asked of a session, and the sessions that calls lead to.
-/

namespace FieldFilter

/-- A call on a session. -/
inductive Call
  | addCondition (today : Day) (group : NodeId)
  | addGroup (parent : NodeId) (junction : Junction)
  | updateCondition (id : NodeId) (patch : Patch)
  | updateGroup (id : NodeId) (junction : Junction)
  | deleteCondition (id : NodeId)
  | deleteGroup (id : NodeId)
  | moveCondition (id target : NodeId) (anchor : Option NodeId)
  | moveGroup (id target : NodeId) (anchor : Option NodeId)
  | moveItem (kind : Kind) (id reported : NodeId) (d : Destination)
  | drop (drop : Drop)
  | clear
  | load (text : String)
  | setTab (tab : Tab)
  | setText (text : String)
  | revalidate
  | takeScrollTarget
  deriving Repr

/-- Whether the value that a call sets, if it sets one, is of the kind that a text can mean. -/
def Call.Proper : Call → Prop
  | updateCondition _ patch => ∀ v, patch.value = some (some v) → v.Proper
  | _ => True

/-- What a call answers. -/
inductive Reply
  | flag (b : Bool)
  | node (id : Option NodeId)
  | done
  deriving DecidableEq, Repr

namespace Session

/-- Carries out a drop; the result says whether the item was moved, be it to its own place. -/
def drop (s : Session) (drop : Drop) : Outcome Bool :=
  match drop.resolve s.root with
  | (none, events) => s.refuse false events
  | (some d, events) =>
    (s.moveItem drop.dragged.kind drop.dragged.id drop.dragged.group d).after events

def perform (s : Session) : Call → Outcome Reply
  | .addCondition today group => (s.addCondition today group).map .node
  | .addGroup parent j => (s.addGroup parent j).map .node
  | .updateCondition id patch => (s.updateCondition id patch).map .flag
  | .updateGroup id j => (s.updateGroup id j).map .flag
  | .deleteCondition id => (s.deleteCondition id).map .flag
  | .deleteGroup id => (s.deleteGroup id).map .flag
  | .moveCondition id target anchor => (s.moveCondition id target anchor).map .flag
  | .moveGroup id target anchor => (s.moveGroup id target anchor).map .flag
  | .moveItem kind id reported d => (s.moveItem kind id reported d).map .flag
  | .drop drop => (s.drop drop).map .flag
  | .clear => s.clear.giving .done
  | .load text => (s.load text).map .flag
  | .setTab tab => (s.setTab tab).map .flag
  | .setText text => (s.setText text).giving .done
  | .revalidate => s.revalidate.map .flag
  | .takeScrollTarget => s.takeScrollTarget.map .node

/-- The sessions that proper calls lead to, from any start. -/
inductive Reachable : Session → Prop
  | start (fields : List Field) (preferences : Preferences) (initial : Option String) :
      Reachable (start fields preferences initial).session
  | call {s : Session} (c : Call) : c.Proper → Reachable s → Reachable (s.perform c).session

end Session

end FieldFilter
