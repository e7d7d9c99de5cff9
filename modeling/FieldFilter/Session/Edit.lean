import FieldFilter.Session.Basic

/-!
Editing the outline: adding, changing and deleting nodes. A call that is refused leaves the session
as it is.
-/

namespace FieldFilter.Session

/-- What a refused call gives. -/
def refuse (s : Session) (result : α) (events : List Event) : Outcome α := ⟨result, s, events⟩

/-- The condition that is added: the first field equals the default value of its type. -/
def newCondition (s : Session) (today : Day) : Condition :=
  match s.fields with
  | [] => ⟨s.next, "", .equal, none⟩
  | f :: _ => ⟨s.next, f.key, .equal, some (f.type.defaultValue today)⟩

/-- Adds a condition at the end of a group. -/
def addCondition (s : Session) (today : Day) (group : NodeId) : Outcome (Option NodeId) :=
  if Limits.treeNodes ≤ s.root.size then s.refuse none [.treeFull s.root.size]
  else
    match s.root.modifyGroup group (Group.insertChild (.condition (s.newCondition today)) none) with
    | none => s.refuse none [.addToMissingGroup group]
    | some root =>
      let added := { s with root := root, next := s.next + 1, scrollTarget := some s.next }
      (added.settle .addCondition s.next).giving (some s.next)

/-- Adds an empty group at the end of a group, as deep as the preferences allow. -/
def addGroup (s : Session) (parent : NodeId) (j : Junction) : Outcome (Option NodeId) :=
  if Limits.treeNodes ≤ s.root.size then s.refuse none [.treeFull s.root.size]
  else
    match s.root.depth? parent with
    | none => s.refuse none [.addToMissingParent parent]
    | some depth =>
      if s.preferences.maxNesting ≤ depth then
        s.refuse none [.nestingReached parent s.preferences.maxNesting]
      else
        match s.root.modifyGroup parent (Group.insertChild (.group (.empty s.next j)) none) with
        -- the id is drawn by now
        | none => { s with next := s.next + 1 }.refuse none []
        | some root =>
          let added := { s with root := root, next := s.next + 1 }
          (added.settle .addGroup s.next).giving (some s.next)

/-- Changes parts of a condition. -/
def updateCondition (s : Session) (id : NodeId) (patch : Patch) : Outcome Bool :=
  match s.root.modifyCondition id (Condition.apply patch) with
  | none => s.refuse false [.updateMissing .condition id]
  | some root => ({ s with root := root }.settle .updateCondition id).giving true

/-- Changes the junction of a group. -/
def updateGroup (s : Session) (id : NodeId) (j : Junction) : Outcome Bool :=
  match s.root.modifyGroup id (fun g => { g with junction := j }) with
  | none => s.refuse false [.updateMissing .group id]
  | some root => ({ s with root := root }.settle .updateGroup id).giving true

def deleteCondition (s : Session) (id : NodeId) : Outcome Bool :=
  match s.root.detach .condition id with
  | none => s.refuse false [.deleteMissing .condition id]
  | some (root, _) => ({ s with root := root }.settle .deleteCondition id).giving true

/-- Deletes a group with everything below it. The root stays. -/
def deleteGroup (s : Session) (id : NodeId) : Outcome Bool :=
  if id = s.root.id then s.refuse false [.rootKept id]
  else
    match s.root.detach .group id with
    | none => s.refuse false [.deleteMissing .group id]
    | some (root, _) => ({ s with root := root }.settle .deleteGroup id).giving true

/-- Starts again from an empty outline. The tab stays as it is. -/
def clear (s : Session) : Outcome Unit :=
  (({ s.replaceRoot s.freshRoot with text := "" }).settle .clear s.root.id).giving ()

end FieldFilter.Session
