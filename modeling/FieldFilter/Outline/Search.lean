import FieldFilter.Outline.Basic

/-!
Searching and changing outlines. All look-ups are one search, a group before its subgroups and those
in the order in which they arrived; all changes below the root alter the first group that a search
of the same order finds.
-/

namespace FieldFilter.Group

variable {α : Type}

mutual

/-- The first answer of `f` at this group or below it. -/
def search (f : Group → Option α) : Group → Option α
  | ⟨id, junction, conditions, groups, order⟩ =>
    match f ⟨id, junction, conditions, groups, order⟩ with
    | some a => some a
    | none => searchAll f groups

def searchAll (f : Group → Option α) : List Group → Option α
  | [] => none
  | g :: rest =>
    match search f g with
    | some a => some a
    | none => searchAll f rest

end

mutual

/-- Changes the first group that `f` can change. -/
def alter (f : Group → Option (Group × α)) : Group → Option (Group × α)
  | ⟨id, junction, conditions, groups, order⟩ =>
    match f ⟨id, junction, conditions, groups, order⟩ with
    | some r => some r
    | none =>
      match alterAll f groups with
      | some (groups, a) => some (⟨id, junction, conditions, groups, order⟩, a)
      | none => none

def alterAll (f : Group → Option (Group × α)) : List Group → Option (List Group × α)
  | [] => none
  | g :: rest =>
    match alter f g with
    | some (g, a) => some (g :: rest, a)
    | none =>
      match alterAll f rest with
      | some (rest, a) => some (g :: rest, a)
      | none => none

end

/-! ## Look-ups -/

/-- The group with the given id, this one included. -/
def findGroup? (g : Group) (id : NodeId) : Option Group :=
  g.search fun h => if h.id = id then some h else none

def findCondition? (g : Group) (id : NodeId) : Option Condition :=
  g.search fun h => h.conditions.find? (·.id == id)

/-- The group among whose children a node stands. -/
def findParent? (g : Group) (kind : Kind) (id : NodeId) : Option Group :=
  g.search fun h => if h.order.contains ⟨kind, id⟩ then some h else none

def contains (g : Group) (kind : Kind) (id : NodeId) : Bool :=
  match kind with
  | .condition => (g.findCondition? id).isSome
  | .group => (g.findGroup? id).isSome

mutual

/-- The number of groups from this one down to the one with the given id. -/
def depth? (id : NodeId) : Group → Option Nat
  | ⟨own, _, _, groups, _⟩ => if own = id then some 1 else (depthAll? id groups).map (· + 1)

def depthAll? (id : NodeId) : List Group → Option Nat
  | [] => none
  | g :: rest =>
    match depth? id g with
    | some d => some d
    | none => depthAll? id rest

end

/-! ## Changes -/

/-- Puts a child among the others at a place, or last. It arrives last. -/
def insertChild (item : Item) (index : Option Nat) (g : Group) : Group :=
  let order := g.order.insertIdx (min (index.getD g.order.length) g.order.length) item.ref
  match item with
  | .condition c => { g with conditions := g.conditions ++ [c], order := order }
  | .group h => { g with groups := g.groups ++ [h], order := order }

/-- Takes a child out. -/
def detachChild (kind : Kind) (id : NodeId) (g : Group) : Option (Group × Item) :=
  let order := g.order.filter (· ≠ ⟨kind, id⟩)
  match kind with
  | .condition =>
    (g.conditions.find? (·.id == id)).map fun c =>
      ({ g with conditions := g.conditions.eraseP (·.id == id), order := order }, .condition c)
  | .group =>
    (g.groups.find? (·.id == id)).map fun h =>
      ({ g with groups := g.groups.eraseP (·.id == id), order := order }, .group h)

/-- Takes a node out, wherever below this group it is, and says which group held it. -/
def detach (kind : Kind) (id : NodeId) (g : Group) : Option (Group × NodeId × Item) :=
  g.alter fun h => (h.detachChild kind id).map fun (h', item) => (h', h.id, item)

/-- Changes the group with the given id. -/
def modifyGroup (id : NodeId) (f : Group → Group) (g : Group) : Option Group :=
  (g.alter fun h => if h.id = id then some (f h, ()) else none).map Prod.fst

/-- Changes the first of some conditions that has the given id. -/
def modifyFirst (id : NodeId) (f : Condition → Condition) :
    List Condition → Option (List Condition)
  | [] => none
  | c :: rest =>
    if c.id = id then some (f c :: rest) else (modifyFirst id f rest).map (c :: ·)

/-- Changes the condition with the given id. -/
def modifyCondition (id : NodeId) (f : Condition → Condition) (g : Group) : Option Group :=
  (g.alter fun h =>
    (modifyFirst id f h.conditions).map fun cs => ({ h with conditions := cs }, ())).map Prod.fst

end FieldFilter.Group
