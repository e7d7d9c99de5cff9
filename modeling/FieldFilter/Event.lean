import FieldFilter.Code
import FieldFilter.Outline.Basic
import FieldFilter.Validation.Check

/-!
Events: everything that is reported while filters are checked, read and edited. Each event has a
level, sometimes a code, a message and a context; these four are its wording.
-/

namespace FieldFilter

/-! ## What events are about -/

/-- The two views of an edited filter: the constructor, which shows the outline, and the JSON tab,
which shows a text. -/
inductive Tab
  | constructor
  | json
  deriving DecidableEq, Repr

namespace Tab

def name : Tab → String
  | constructor => "constructor"
  | json => "json"

def ofName? (s : String) : Option Tab := [constructor, json].find? (·.name == s)

end Tab

/-- Why a session does not give out its filter, or a text makes no outline. -/
inductive Refusal
  /-- a text that is no JSON, without the words of its reader, as in `Fault.malformedText` -/
  | unreadable
  | invalid (f : Fault)
  deriving DecidableEq, Repr

namespace Refusal

def name : Refusal → String
  | unreadable => "Json"
  | invalid _ => "InvalidState"

def code : Refusal → Code
  | unreadable => .notRepresentable
  | invalid _ => .invalidState

def message : Refusal → String
  | unreadable => "Filter JSON could not be processed"
  | invalid f => s!"Filter is invalid: {f.message}"

end Refusal

/-- The ways in which the outline of a session changes. -/
inductive Operation
  | addCondition
  | addGroup
  | updateCondition
  | updateGroup
  | deleteCondition
  | deleteGroup
  | move
  | clear
  deriving DecidableEq, Repr

def Operation.name : Operation → String
  | addCondition => "add_condition"
  | addGroup => "add_group"
  | updateCondition => "update_condition"
  | updateGroup => "update_group_operator"
  | deleteCondition => "delete_condition"
  | deleteGroup => "delete_group"
  | move => "move"
  | clear => "clear"

/-! ## Log lines -/

inductive Level
  | error
  | warning
  | info
  | debug
  deriving DecidableEq, Repr

def Level.name : Level → String
  | error => "ERROR"
  | warning => "WARN"
  | info => "INFO"
  | debug => "DEBUG"

/-- The text of an event: a code in brackets, a message, and what belongs to it as pairs of a name
and a value. -/
def eventText (code : Option String) (message : String) (context : List (String × String)) :
    String :=
  let head := code.elim message fun c => s!"[{c}] {message}"
  let pairs := context.map fun (name, value) => s!"{name}={value}"
  if pairs.isEmpty then head else head ++ " (" ++ ", ".intercalate pairs ++ ")"

/-! ## Events -/

inductive Event
  /-- an expression was checked and has a fault -/
  | rejected (f : Fault)
  | accepted
  /-- a check goes into a group -/
  | entered (e : Validation.Entered)
  /-- a filter that is a single condition has no field reference -/
  | rootDropped (op : Operator)
  | rootUnrecognised (expression : String)
  | conditionSkipped (group : NodeId) (index : Nat)
  | elementSkipped (group : NodeId) (index : Nat) (element : String)
  | groupRead (id : NodeId) (junction : Junction) (children : Nat)
  /-- the view that counts has a fault -/
  | stateInvalid (tab : Tab) (f : Fault)
  | requestedWhileInvalid (r : Refusal)
  | mutated (operation : Operation) (id : NodeId) (nodes : Nat)
  | treeFull (nodes : Nat)
  | addToMissingGroup (group : NodeId)
  | addToMissingParent (parent : NodeId)
  | nestingReached (parent : NodeId) (limit : Nat)
  | updateMissing (kind : Kind) (id : NodeId)
  | deleteMissing (kind : Kind) (id : NodeId)
  | rootKept (id : NodeId)
  | staleSource (id reported : NodeId)
  | moveToMissing (group : NodeId)
  | moveMissing (kind : Kind) (id : NodeId)
  | moveRoot (id : NodeId)
  | moveIntoItself (id target : NodeId)
  | moveTooDeep (id target : NodeId) (limit : Nat)
  /-- a node was taken out, and the group that it was to go to is gone -/
  | targetVanished (id target : NodeId)
  | anchorMissing (anchor group : NodeId)
  | moved (kind : Kind) (id origin target : NodeId) (side : Side)
  | loaded (root : NodeId) (nodes : Nat)
  | loadFailed (f : Fault)
  | switched (tab : Tab) (valid : Bool)
  | switchRefused (f : Fault)
  | dropResolved (group : NodeId) (candidates : Nat) (side : Side)
  | preferencesRejected
  deriving Repr

namespace Event

def level : Event → Level
  | rejected _ | requestedWhileInvalid _ | rootKept _ | targetVanished .. | loadFailed _
  | switchRefused _ | preferencesRejected => .error
  | accepted | moved .. | loaded .. | switched .. => .info
  | rootDropped _ | rootUnrecognised _ | conditionSkipped .. | elementSkipped .. | treeFull _
  | addToMissingGroup _ | addToMissingParent _ | nestingReached .. | updateMissing ..
  | deleteMissing .. | moveToMissing _ | moveMissing .. | moveRoot _ | moveIntoItself ..
  | moveTooDeep .. => .warning
  | entered _ | groupRead .. | stateInvalid .. | mutated .. | staleSource .. | anchorMissing ..
  | dropResolved .. => .debug

/-- Errors and successes have codes. -/
def code? : Event → Option Code
  | rejected f => some f.code
  | requestedWhileInvalid r => some r.code
  | rootKept _ => some .invalidState
  | targetVanished .. => some .internalError
  | loadFailed _ => some .loadFailed
  | switchRefused _ => some .switchFailed
  | preferencesRejected => some .badConfiguration
  | accepted => some .expressionAccepted
  | moved .. => some .itemMoved
  | loaded .. => some .filterLoaded
  | switched .. => some .tabSwitched
  | _ => none

def message : Event → String
  | rejected _ => "Filter expression rejected"
  | accepted => "Filter expression accepted"
  | entered _ => "Validating logical group"
  | rootDropped _ => "Dropping malformed top-level condition"
  | rootUnrecognised _ => "Unrecognised filter expression, starting from an empty group"
  | conditionSkipped .. => "Skipping condition without a field reference"
  | elementSkipped .. => "Skipping unrecognised group element"
  | groupRead .. => "Parsed group"
  | stateInvalid .. => "Filter state is invalid"
  | requestedWhileInvalid _ => "Filter requested while invalid"
  | mutated .. => "Filter tree mutated"
  | treeFull _ => "Filter tree is full"
  | addToMissingGroup _ => "Cannot add condition to missing group"
  | addToMissingParent _ => "Cannot add group to missing parent"
  | nestingReached .. => "Group nesting limit reached"
  | updateMissing kind _ => s!"Cannot update missing {kind.name}"
  | deleteMissing kind _ => s!"Cannot delete missing {kind.name}"
  | rootKept _ => "Refusing to delete the root group"
  | staleSource .. => "Drag source group is stale, using the tree"
  | moveToMissing _ => "Move target group does not exist"
  | moveMissing kind _ => s!"Cannot move missing {kind.name}"
  | moveRoot _ => "The root group cannot be moved"
  | moveIntoItself .. => "A group cannot be moved into itself"
  | moveTooDeep .. => "Move would exceed the group nesting limit"
  | targetVanished .. => "Move target vanished after detach"
  | anchorMissing .. => "Anchor is not in the target group, appending"
  | moved .. => "Filter item moved"
  | loaded .. => "Filter loaded"
  | loadFailed _ => "Filter could not be loaded"
  | switched .. => "Editor tab switched"
  | switchRefused _ => "Staying on the JSON tab"
  | dropResolved .. => "Resolved group drop"
  | preferencesRejected => "Editor preferences rejected"

def context : Event → List (String × String)
  | rejected f | loadFailed f | switchRefused f => [("error_type", f.name), ("reason", f.message)]
  | accepted => []
  | entered e =>
    [("operator", e.junction.token), ("children", toString e.children),
      ("depth", toString e.depth)]
  | rootDropped op => [("operator", op.token)]
  | rootUnrecognised expression => [("expression", expression)]
  | conditionSkipped group index => [("group", toString group), ("index", toString index)]
  | elementSkipped group index element =>
    [("group", toString group), ("index", toString index), ("element", element)]
  | groupRead id junction children =>
    [("id", toString id), ("operator", junction.token), ("children", toString children)]
  | stateInvalid tab f => [("tab", tab.name), ("error_type", f.name)]
  | requestedWhileInvalid r => [("reason", r.message)]
  | mutated operation id nodes =>
    [("operation", operation.name), ("id", toString id), ("nodes", toString nodes)]
  | treeFull nodes => [("nodes", toString nodes), ("limit", toString Limits.treeNodes)]
  | addToMissingGroup group | moveToMissing group => [("group", toString group)]
  | addToMissingParent parent => [("parent", toString parent)]
  | nestingReached parent limit => [("parent", toString parent), ("limit", toString limit)]
  | updateMissing _ id | deleteMissing _ id | rootKept id | moveMissing _ id | moveRoot id =>
    [("id", toString id)]
  | staleSource id reported => [("id", toString id), ("reported", toString reported)]
  | moveIntoItself id target | targetVanished id target =>
    [("id", toString id), ("target", toString target)]
  | moveTooDeep id target limit =>
    [("id", toString id), ("target", toString target), ("limit", toString limit)]
  | anchorMissing anchor group => [("anchor", toString anchor), ("group", toString group)]
  | moved kind id origin target side =>
    [("kind", kind.name), ("id", toString id), ("from", toString origin),
      ("to", toString target), ("position", side.name)]
  | loaded root nodes => [("root", toString root), ("nodes", toString nodes)]
  | switched tab valid => [("tab", tab.name), ("valid", toString valid)]
  | dropResolved group candidates side =>
    [("group", toString group), ("candidates", toString candidates), ("position", side.name)]
  | preferencesRejected => [("reason", "Invalid preferences TOML")]

/-- The line of a log that reports the event. -/
def line (e : Event) : String :=
  s!"{e.level.name} {eventText (e.code?.map Code.text) e.message e.context}"

/-! ## The events of a check -/

/-- The events of checking an expression. -/
def ofCheck (fields : List Field) (e : Json) : List Event :=
  let entered := (Validation.entered fields e).map Event.entered
  match Validation.check fields e with
  | .ok () => entered
  | .error fault => entered ++ [rejected fault]

/-- The events of checking a text. -/
def ofCheckText (fields : List Field) (text : String) : List Event :=
  if Limits.textBytes < text.utf8ByteSize then
    [rejected (.textTooLong text.utf8ByteSize Limits.textBytes)]
  else
    match Json.read? text with
    | none => [rejected .malformedText]
    | some e => ofCheck fields e

end Event

end FieldFilter
