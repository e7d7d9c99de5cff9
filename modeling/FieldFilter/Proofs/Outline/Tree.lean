import FieldFilter.Proofs.Outline.Lookup
import FieldFilter.Proofs.Outline.Siblings
import FieldFilter.Proofs.Outline.Written
import Mathlib.Data.List.Perm.Basic

/-!
# Outlines as ordered trees

`g.tree` is the outline `g` with its children as they stand, without the row in which they arrived.
Its nodes are those of the outline (`nodes_tree`), and what is written of the outline depends on it
alone (`expression?_tree`). `t.Replaced t' u u'` says that the tree `u'` is `u` with `t'` in one
place where `t` was; a change to one group of an outline is one to its tree (`Replaced.tree`). So a
child that is put last, a child that is taken out and a group or condition that is changed show in
the tree at that one place: `append_tree`, `detach_tree`, `rejoin_tree`, `modifyCondition_tree`.
-/

namespace FieldFilter

/-- An ordered tree of conditions and groups. -/
inductive Tree
  | condition (c : Condition)
  | group (id : NodeId) (j : Junction) (children : List Tree)

namespace Tree

mutual

/-- A tree and all trees below it, each before those below it. -/
def nodes : Tree → List Tree
  | condition c => [condition c]
  | group id j children => group id j children :: nodesOfAll children

def nodesOfAll : List Tree → List Tree
  | [] => []
  | t :: rest => t.nodes ++ nodesOfAll rest

end

mutual

/-- The expression of what is complete in a tree, if anything is. -/
def expression? : Tree → Option Json
  | condition c => c.expression?
  | group _ j children => Group.joined? j (expressions children)

def expressions : List Tree → List Json
  | [] => []
  | t :: rest => t.expression?.toList ++ expressions rest

end

def kind : Tree → Kind
  | condition _ => .condition
  | group _ _ _ => .group

def id : Tree → NodeId
  | condition c => c.id
  | group id _ _ => id

/-- A node of the kind has the id. -/
def Has (t : Tree) (kind : Kind) (id : NodeId) : Prop :=
  ∃ n ∈ t.nodes, n.kind = kind ∧ n.id = id

/-- `u'` is `u` with `t'` in the place of `t`, which stands somewhere in it. -/
inductive Replaced (t t' : Tree) : Tree → Tree → Prop
  | here : Replaced t t' t t'
  | inside {c c' : Tree} (id : NodeId) (j : Junction) (before after : List Tree) :
      Replaced t t' c c' →
      Replaced t t' (group id j (before ++ c :: after)) (group id j (before ++ c' :: after))

/-- `u'` is `u` with a node added as the last child of a group. -/
def Appended (target : NodeId) (node : Tree) (u u' : Tree) : Prop :=
  ∃ j children, Replaced (group target j children) (group target j (children ++ [node])) u u'

/-- `u'` is `u` without a node and all below it. -/
def Removed (kind : Kind) (id : NodeId) (u u' : Tree) : Prop :=
  ∃ node parent j before after, node.kind = kind ∧ node.id = id ∧
    Replaced (group parent j (before ++ node :: after)) (group parent j (before ++ after)) u u'

/-- `u'` is `u` with another junction in a group. -/
def Rejoined (target : NodeId) (j : Junction) (u u' : Tree) : Prop :=
  ∃ i children, Replaced (group target i children) (group target j children) u u'

theorem nodesOfAll_eq (ts : List Tree) : nodesOfAll ts = ts.flatMap nodes := by
  induction ts with
  | nil => rfl
  | cons t rest ih => simp only [nodesOfAll, ih, List.flatMap_cons]

theorem expressions_eq (ts : List Tree) : expressions ts = ts.filterMap expression? := by
  induction ts with
  | nil => rfl
  | cons t rest ih =>
    rw [expressions, ih, List.filterMap_cons]
    cases t.expression? <;> rfl

/-- What is replaced in a tree that is replaced itself. -/
theorem Replaced.trans {a a' t t' u u' : Tree} (outer : Replaced t t' u u')
    (inner : Replaced a a' t t') : Replaced a a' u u' := by
  induction outer with
  | here => exact inner
  | inside id j before after _ ih => exact .inside id j before after ih

end Tree

mutual

/-- The outline as it stands. -/
def Group.tree : Group → Tree
  | ⟨id, junction, conditions, groups, order⟩ =>
    let below := Group.trees groups
    .group id junction <| order.filterMap fun r =>
      match r.kind with
      | .condition => (conditions.find? (·.id == r.id)).map .condition
      | .group => below.lookup r.id

/-- The trees of some groups, under their ids. -/
def Group.trees : List Group → List (NodeId × Tree)
  | [] => []
  | g :: rest => (g.id, g.tree) :: Group.trees rest

end

def Item.tree : Item → Tree
  | .condition c => .condition c
  | .group g => g.tree

namespace Group

theorem lookup_trees (gs : List Group) (id : NodeId) :
    (trees gs).lookup id = (gs.find? (·.id == id)).map tree := by
  induction gs with
  | nil => rfl
  | cons g rest ih =>
    rw [trees, List.lookup_cons, List.find?_cons, BEq.comm]
    split <;> simp_all

/-- The tree of a group is made from its children as they stand. -/
theorem tree_eq (g : Group) : g.tree = .group g.id g.junction (g.children.map Item.tree) := by
  obtain ⟨id, j, cs, gs, order⟩ := g
  rw [tree, children, List.map_filterMap]
  congr 2
  funext r
  obtain ⟨kind, id⟩ := r
  cases kind with
  | condition => simp [child?, Function.comp_def, Item.tree]
  | group => simp [child?, lookup_trees, Function.comp_def, Item.tree]

/-- What is written of an outline depends on its tree alone. -/
theorem expression?_tree (g : Group) : g.tree.expression? = g.expression? := by
  induction g using induct with
  | step g ih =>
    rw [tree_eq, Tree.expression?, Tree.expressions_eq, List.filterMap_map, expression?_eq]
    congr 1
    refine List.filterMap_congr fun i hi => ?_
    obtain ⟨c, -, rfl⟩ | ⟨x, hx, rfl⟩ := mem_of_mem_children hi
    · rfl
    · exact ih x hx

/-! ## The nodes of the tree -/

/-- The children as they stand are those that arrived. -/
theorem children_perm {g : Group} (hg : g.Intact) :
    g.children.Perm (g.conditions.map .condition ++ g.groups.map .group) := by
  have conditions : (g.conditions.map fun c => (⟨.condition, c.id⟩ : ChildRef)).filterMap
      g.child? = g.conditions.map .condition := by
    rw [List.filterMap_map, ← List.filterMap_eq_map]
    refine List.filterMap_congr fun c hc => ?_
    exact congrArg (Option.map Item.condition) (find?_of_nodup (nodup_conditions hg.unique) hc)
  have groups : (g.groups.map fun x => (⟨.group, x.id⟩ : ChildRef)).filterMap
      g.child? = g.groups.map .group := by
    rw [List.filterMap_map, ← List.filterMap_eq_map]
    refine List.filterMap_congr fun x hx => ?_
    exact congrArg (Option.map Item.group) (find?_of_nodup (nodup_groups hg.unique) hx)
  rw [← conditions, ← groups, ← List.filterMap_append]
  exact (hg.ordered g (mem_family_self g)).filterMap g.child?

/-- The nodes of the tree are the conditions and the groups of the outline. -/
theorem nodes_tree (g : Group) : g.Intact →
    g.tree.nodes.Perm (g.leaves.map .condition ++ g.family.map tree) := by
  induction g using induct with
  | step g ih =>
    intro hg
    have below : (g.groups.flatMap fun x => x.tree.nodes).Perm
        ((g.groups.flatMap leaves).map .condition ++ (g.groups.flatMap family).map tree) := by
      rw [List.map_flatMap, List.map_flatMap]
      refine (List.Perm.flatMap_left _ fun x hx => ?_).trans
        (List.flatMap_append_perm _ _ _).symm
      exact ih x hx (hg.of_mem (mem_family_of_mem hx))
    have children : (Tree.nodesOfAll (g.children.map Item.tree)).Perm
        (g.conditions.map .condition ++ g.groups.flatMap fun x => x.tree.nodes) := by
      rw [Tree.nodesOfAll_eq, List.flatMap_map]
      refine ((children_perm hg).flatMap_right _).trans (.of_eq ?_)
      simp [List.flatMap_map, Item.tree, Tree.nodes, ← List.map_eq_flatMap]
    rw [tree_eq, Tree.nodes, ← tree_eq, leaves_eq, family_eq, List.map_append, List.map_cons]
    refine ((children.trans (below.append_left _)).cons g.tree).trans ?_
    rw [← List.append_assoc]
    exact List.perm_middle.symm

theorem size_eq (g : Group) : g.size = g.leaves.length + g.family.length := by
  have all (gs : List Group) (each : ∀ x ∈ gs, x.size = x.leaves.length + x.family.length) :
      sizeOfAll gs = (gs.flatMap leaves).length + (gs.flatMap family).length := by
    induction gs with
    | nil => rfl
    | cons x rest ih =>
      obtain ⟨first, others⟩ := List.forall_mem_cons.1 each
      rw [sizeOfAll, first, ih others, List.flatMap_cons, List.flatMap_cons, List.length_append,
        List.length_append]
      omega
  induction g using induct with
  | step g ih =>
    have below := all g.groups ih
    rw [leaves_eq, family_eq, List.length_append, List.length_cons]
    obtain ⟨id, j, cs, gs, order⟩ := g
    simp only [size] at below ⊢
    omega

/-- The tree has as many nodes as are counted in the outline. -/
theorem length_nodes_tree {g : Group} (hg : g.Intact) : g.tree.nodes.length = g.size := by
  rw [(nodes_tree g hg).length_eq, size_eq, List.length_append, List.length_map, List.length_map]

theorem tree_kind (g : Group) : g.tree.kind = .group := by
  rw [tree_eq]
  rfl

theorem tree_id (g : Group) : g.tree.id = g.id := by
  rw [tree_eq]
  rfl

/-- The tree has the nodes that the outline has. -/
theorem has_tree {g : Group} (hg : g.Intact) {kind : Kind} {id : NodeId} :
    g.tree.Has kind id ↔ g.Has kind id := by
  have nodes (n : Tree) : n ∈ g.tree.nodes ↔
      (∃ c ∈ g.leaves, .condition c = n) ∨ ∃ x ∈ g.family, x.tree = n := by
    rw [(nodes_tree g hg).mem_iff, List.mem_append, List.mem_map, List.mem_map]
  constructor
  · rintro ⟨n, hn, rfl, rfl⟩
    obtain ⟨c, hc, rfl⟩ | ⟨x, hx, rfl⟩ := (nodes n).1 hn
    · exact ⟨c, hc, rfl⟩
    · rw [tree_kind, tree_id]
      exact ⟨x, hx, rfl⟩
  · intro has
    cases kind with
    | condition =>
      obtain ⟨c, hc, rfl⟩ := has
      exact ⟨.condition c, (nodes _).2 (.inl ⟨c, hc, rfl⟩), rfl, rfl⟩
    | group =>
      obtain ⟨x, hx, rfl⟩ := has
      exact ⟨x.tree, (nodes _).2 (.inr ⟨x, hx, rfl⟩), tree_kind x, tree_id x⟩

theorem ids_perm (g : Group) :
    g.ids.Perm (g.family.map Group.id ++ g.leaves.map Condition.id) := by
  have split := List.flatMap_append_perm g.family (fun x => [x.id]) fun x =>
    x.conditions.map Condition.id
  rw [leaves, List.map_flatMap, List.map_eq_flatMap]
  exact split.symm

/-- Where ids differ, a condition is told by its id. -/
theorem leaf_eq_of_id {g : Group} (ids : g.ids.Nodup) {c d : Condition} (hc : c ∈ g.leaves)
    (hd : d ∈ g.leaves) (same : c.id = d.id) : c = d := by
  have leaves := (List.nodup_append.1 (g.ids_perm.nodup_iff.1 ids)).2.1
  exact List.inj_on_of_nodup_map leaves hc hd same

/-- The nodes of the tree have the ids of the outline. -/
theorem ids_tree {g : Group} (hg : g.Intact) : (g.tree.nodes.map Tree.id).Perm g.ids := by
  refine ((nodes_tree g hg).map Tree.id).trans ?_
  rw [List.map_append, List.map_map, List.map_map]
  refine List.perm_append_comm.trans (List.Perm.trans (.of_eq ?_) g.ids_perm.symm)
  congr 1
  exact List.map_congr_left fun x _ => tree_id x

end Group

theorem Item.tree_kind (i : Item) : i.tree.kind = i.kind := by
  cases i with
  | condition c => rfl
  | group g => exact g.tree_kind

theorem Item.tree_id (i : Item) : i.tree.id = i.id := by
  cases i with
  | condition c => rfl
  | group g => exact g.tree_id

namespace Group

/-! ## Changes -/

section
variable {g g' : Group}

/-- A group that is replaced by one with its id is replaced in the tree. -/
theorem Replaced.tree {x x' : Group} (r : Replaced x x' g g') (same : x'.id = x.id) :
    g.Intact → x.tree.Replaced x'.tree g.tree g'.tree := by
  induction r with
  | here => exact fun _ => .here
  | @inside c c' id j cs before rest order r ih =>
    intro hg
    have below := ih (hg.of_mem (mem_family_of_mem (by simp)))
    obtain ⟨front, back, stood, stand⟩ := children_exchange_group c' (r.id_eq same)
      (hg.ordered _ (mem_family_self _)) hg.unique
    rw [tree_eq ⟨id, j, cs, before ++ c :: rest, order⟩,
      tree_eq ⟨id, j, cs, before ++ c' :: rest, order⟩, stood, stand]
    simpa [Item.tree] using .inside id j (front.map Item.tree) (back.map Item.tree) below

/-- A node that is put last into a group stands after its other children. -/
theorem append_tree {id : NodeId} {item : Item} (hg : g.Intact)
    (fresh : ∀ n ∈ item.ids, n ∉ g.ids) (h : g.modifyGroup id (insertChild item none) = some g') :
    Tree.Appended id item.tree g.tree g'.tree := by
  obtain ⟨x, rfl, r⟩ := modifyGroup_replaced h
  have new : item.ref ∉ x.refs := fun old =>
    fresh item.id item.id_mem_ids (mem_ids_of_mem r.mem (id_mem_ids_of_mem_refs old))
  have shown := r.tree (insertChild_id item none x) hg
  rw [tree_eq x, tree_eq (insertChild item none x), insertChild_id, insertChild_junction,
    children_append (hg.ordered x r.mem) new, List.map_append] at shown
  exact ⟨x.junction, x.children.map Item.tree, shown⟩

/-- A node that is taken out is gone from among the children of its group. -/
theorem detach_tree {kind : Kind} {id origin : NodeId} {item : Item} (hg : g.Intact)
    (h : g.detach kind id = some (g', origin, item)) : Tree.Removed kind id g.tree g'.tree := by
  obtain ⟨x, x', detached, rfl, r⟩ := detach_replaced h
  obtain ⟨before, after, stood, stand⟩ := children_detachChild detached
    (hg.ordered x r.mem) (hg.of_mem r.mem).unique
  have shown := r.tree (detachChild_id detached) hg
  rw [tree_eq x, tree_eq x', stood, stand, List.map_append, List.map_append, List.map_cons,
    detachChild_id detached, detachChild_junction detached] at shown
  have ref := detach_ref h
  exact ⟨item.tree, x.id, x.junction, before.map Item.tree, after.map Item.tree,
    item.tree_kind.trans (congrArg ChildRef.kind ref),
    item.tree_id.trans (congrArg ChildRef.id ref), shown⟩

/-- A group with another junction keeps its place and its children. -/
theorem rejoin_tree {id : NodeId} {j : Junction} (hg : g.Intact)
    (h : g.modifyGroup id (fun x => { x with junction := j }) = some g') :
    Tree.Rejoined id j g.tree g'.tree := by
  obtain ⟨x, rfl, r⟩ := modifyGroup_replaced h
  have shown := r.tree rfl hg
  rw [tree_eq, tree_eq { x with junction := j }] at shown
  exact ⟨_, _, shown⟩

/-- A condition that is changed keeps its place. -/
theorem modifyCondition_tree {id : NodeId} {f : Condition → Condition} (same : ∀ c, (f c).id = c.id)
    (hg : g.Intact) (h : g.modifyCondition id f = some g') :
    ∃ c, c.id = id ∧ Tree.Replaced (.condition c) (.condition (f c)) g.tree g'.tree := by
  obtain ⟨x, before, c, rest, split, named, r⟩ := modifyCondition_replaced h
  obtain ⟨xid, j, cs, gs, order⟩ := x
  obtain rfl : cs = before ++ c :: rest := split
  have shown := r.tree rfl hg
  obtain ⟨front, back, stood, stand⟩ := children_exchange_condition (f c) (same c)
    (hg.ordered _ r.mem) (hg.of_mem r.mem).unique
  rw [tree_eq ⟨xid, j, before ++ c :: rest, gs, order⟩,
    tree_eq ⟨xid, j, before ++ f c :: rest, gs, order⟩, stood, stand, List.map_append,
    List.map_append, List.map_cons, List.map_cons] at shown
  exact ⟨c, named, shown.trans (.inside xid j _ _ .here)⟩

end

end Group

end FieldFilter
