import FieldFilter.Proofs.Outline.Integrity
import FieldFilter.Proofs.Outline.Renumbered
import FieldFilter.Proofs.Outline.Tree

/-!
# Writing an outline and reading it again

What is written of an outline is read again as its tree without what is not complete (`pruned`),
under new ids (`reread_pruned`). The children of a group are written in their row, and each is read
as itself, whatever its values look like (`Group.rereads`). This gives the tree but for the ids:
the same tree if all ids are put to 0 (`bare`). Trees that are the same in this way and have no id
twice differ by a renumbering (`renumbered_of_bare`).
-/

namespace FieldFilter

/-- The condition without a value that its operator does not take. -/
def Condition.cleared (c : Condition) : Condition :=
  { c with value := if c.op.isUnary then none else c.value }

instance (c : Condition) : Decidable c.Complete :=
  decidable_of_iff (c.expression?.isSome = true) <|
    Option.isSome_iff_exists.trans
      ⟨fun ⟨_, written⟩ => Condition.complete_of_expression? written, Condition.exists_of_complete⟩

namespace Tree

/-- Induction on a tree by way of its children. -/
theorem induct {P : Tree → Prop} (condition : ∀ c, P (condition c))
    (group : ∀ id j children, (∀ t ∈ children, P t) → P (group id j children)) : ∀ t, P t
  | .condition c => condition c
  | .group id j children => group id j children fun t ht =>
    have : sizeOf t < sizeOf children := List.sizeOf_lt_of_mem ht
    induct condition group t
termination_by t => sizeOf t
decreasing_by simp only [Tree.group.sizeOf_spec]; omega

def condition? : Tree → Option Condition
  | condition c => some c
  | group _ _ _ => none

/-- The conditions of a tree from the first to the last. -/
def leaves (t : Tree) : List Condition := t.nodes.filterMap condition?

/-- The ids of a tree, each before those below it. -/
def ids (t : Tree) : List NodeId := t.nodes.map id

/-- There is a complete condition in the tree. -/
def Filled (t : Tree) : Prop := ∃ c ∈ t.leaves, c.Complete

instance (t : Tree) : Decidable t.Filled := inferInstanceAs (Decidable (∃ c ∈ t.leaves, c.Complete))

mutual

/-- The tree without what is not complete: of the children of a group those stay in which there is a
complete condition. -/
def pruned : Tree → Tree
  | condition c => condition c.cleared
  | group id j children => group id j (prunedEach children)

def prunedEach : List Tree → List Tree
  | [] => []
  | t :: rest => if t.Filled then t.pruned :: prunedEach rest else prunedEach rest

end

mutual

/-- The tree with every id put another way. -/
def renumber (f : NodeId → NodeId) : Tree → Tree
  | condition c => condition (c.renumber f)
  | group id j children => group (f id) j (renumberEach f children)

def renumberEach (f : NodeId → NodeId) : List Tree → List Tree
  | [] => []
  | t :: rest => t.renumber f :: renumberEach f rest

end

/-- The second tree is the first one with other ids, different ones for different ones. -/
def Renumbered (t t' : Tree) : Prop :=
  ∃ f : NodeId → NodeId, (∀ a ∈ t.ids, ∀ b ∈ t.ids, f a = f b → a = b) ∧ t' = t.renumber f

/-! ## The nodes of a group -/

theorem ids_group (id : NodeId) (j : Junction) (children : List Tree) :
    (group id j children).ids = id :: children.flatMap ids := by
  rw [ids, nodes, nodesOfAll_eq, List.map_cons, List.map_flatMap]
  rfl

theorem filled_condition {c : Condition} : (condition c).Filled ↔ c.Complete := by
  simp [Filled, leaves, nodes, condition?]

/-! ## What stays -/

theorem ids_prunedEach {ts : List Tree} (each : ∀ t ∈ ts, t.pruned.ids.Sublist t.ids) :
    ((prunedEach ts).flatMap ids).Sublist (ts.flatMap ids) := by
  induction ts with
  | nil => exact .refl _
  | cons t rest ih =>
    obtain ⟨first, others⟩ := List.forall_mem_cons.1 each
    rw [prunedEach, List.flatMap_cons]
    by_cases filled : t.Filled
    · rw [if_pos filled, List.flatMap_cons]
      exact first.append (ih others)
    · rw [if_neg filled]
      exact (ih others).trans (List.sublist_append_right _ _)

/-- The ids of what stays are among the ids, in their order. -/
theorem pruned_ids (t : Tree) : t.pruned.ids.Sublist t.ids := by
  induction t using induct with
  | condition c => exact .refl _
  | group id j children ih =>
    rw [pruned, ids_group, ids_group]
    exact (ids_prunedEach ih).cons_cons id

/-! ## Other ids -/

theorem renumberEach_eq (f : NodeId → NodeId) (ts : List Tree) :
    renumberEach f ts = ts.map (renumber f) := by
  induction ts with
  | nil => rfl
  | cons t rest ih => rw [renumberEach, ih, List.map_cons]

theorem ids_renumber (f : NodeId → NodeId) (t : Tree) : (t.renumber f).ids = t.ids.map f := by
  induction t using induct with
  | condition c => rfl
  | group id j children ih =>
    rw [renumber, renumberEach_eq, ids_group, ids_group, List.map_cons, List.map_flatMap,
      List.flatMap_map]
    congr 1
    exact List.flatMap_congr ih

/-- The tree with all ids put to 0. -/
def bare (t : Tree) : Tree := t.renumber fun _ => 0

theorem bare_group (id : NodeId) (j : Junction) (children : List Tree) :
    (group id j children).bare = group 0 j (children.map bare) := by
  rw [bare, renumber, renumberEach_eq]
  rfl

theorem bare_renumber (f : NodeId → NodeId) (t : Tree) : (t.renumber f).bare = t.bare := by
  induction t using induct with
  | condition c => rfl
  | group id j children ih =>
    rw [renumber, renumberEach_eq, bare_group, bare_group, List.map_map]
    congr 1
    exact List.map_congr_left ih

theorem length_ids_of_bare {t t' : Tree} (same : t.bare = t'.bare) :
    t.ids.length = t'.ids.length := by
  have lengths := congrArg (List.length ∘ ids) same
  simpa [bare, ids_renumber] using lengths

theorem eq_of_bare_each {ts ts' : List Tree}
    (each : ∀ t ∈ ts, ∀ t' : Tree, t.bare = t'.bare → t.ids = t'.ids → t = t')
    (same : ts.map bare = ts'.map bare) (named : ts.flatMap ids = ts'.flatMap ids) : ts = ts' := by
  induction ts generalizing ts' with
  | nil => exact (List.map_eq_nil_iff.1 same.symm).symm
  | cons t rest ih =>
    cases ts' with
    | nil => cases same
    | cons t' rest' =>
      obtain ⟨first, others⟩ := List.forall_mem_cons.1 each
      obtain ⟨head, tail⟩ := List.cons.inj same
      rw [List.flatMap_cons, List.flatMap_cons] at named
      -- bare trees that are the same hold as many ids, so the row splits at one place for both
      obtain ⟨own, below⟩ := List.append_inj named (length_ids_of_bare head)
      rw [first t' head own, ih others tail below]

/-- A tree is known from its ids in a row and what is left without them. -/
theorem eq_of_bare (t : Tree) : ∀ t' : Tree, t.bare = t'.bare → t.ids = t'.ids → t = t' := by
  induction t using induct with
  | condition c =>
    intro t' same named
    cases t' with
    | group => cases same
    | condition c' =>
      obtain ⟨id, field, op, value⟩ := c
      obtain ⟨id', field', op', value'⟩ := c'
      obtain ⟨-, rfl, rfl, rfl⟩ := Condition.mk.inj (condition.inj same)
      obtain ⟨rfl, -⟩ : id = id' ∧ _ := List.cons.inj named
      rfl
  | group id j children ih =>
    intro t' same named
    cases t' with
    | condition => cases same
    | group id' j' children' =>
      rw [bare_group, bare_group] at same
      rw [ids_group, ids_group] at named
      obtain ⟨-, rfl, below⟩ := group.inj same
      obtain ⟨rfl, others⟩ := List.cons.inj named
      rw [eq_of_bare_each ih below others]

/-- Different keys can be put to any values. -/
theorem exists_map_eq {l l' : List NodeId} (unique : l.Nodup) (same : l.length = l'.length) :
    ∃ f : NodeId → NodeId, l.map f = l' := by
  refine ⟨fun a => l'[l.idxOf a]?.getD 0, List.ext_getElem (by simpa using same) ?_⟩
  intro i hi hi'
  rw [List.getElem_map, unique.idxOf_getElem, List.getElem?_eq_getElem hi', Option.getD_some]

/-- Trees that are the same but for their ids, and have no id twice, are renumberings. -/
theorem renumbered_of_bare {t t' : Tree} (same : t.bare = t'.bare) (unique : t.ids.Nodup)
    (unique' : t'.ids.Nodup) : t.Renumbered t' := by
  obtain ⟨f, put⟩ := exists_map_eq unique (length_ids_of_bare same)
  refine ⟨f, ?_, ?_⟩
  · rw [← put] at unique'
    exact fun a ha b hb => List.inj_on_of_nodup_map unique' ha hb
  · refine (eq_of_bare _ t' ?_ ?_).symm
    · rw [bare_renumber, same]
    · rw [ids_renumber, put]

end Tree

/-! ## Reading what was written -/

open Reading FieldFilter.Group

/-- The tree holds the conditions of the outline. -/
theorem Group.leaves_tree {g : Group} (hg : g.Intact) : g.tree.leaves.Perm g.leaves := by
  have conditions (l : List Condition) :
      (l.map Tree.condition).filterMap Tree.condition? = l := by
    rw [List.filterMap_map]
    exact List.filterMap_some
  have groups (l : List Group) : (l.map tree).filterMap Tree.condition? = [] := by
    rw [List.filterMap_map, List.filterMap_eq_nil_iff]
    intro x _
    rw [Function.comp_apply, tree_eq]
    rfl
  have held := (nodes_tree g hg).filterMap Tree.condition?
  rwa [List.filterMap_append, conditions, groups, List.append_nil] at held

/-- An outline can be written exactly if its tree has a complete condition. -/
theorem Group.filled_tree {g : Group} (hg : g.Intact) :
    g.tree.Filled ↔ ∃ e, g.expression? = some e := by
  rw [← Option.ne_none_iff_exists', ne_eq, expression?_eq_none_iff hg, Tree.Filled]
  simp [(leaves_tree hg).mem_iff]

/-- The item can be written if there is a complete condition in it, and what is written of it is
read as the item again, but for its ids and what is not complete. -/
structure Item.Rereads (i : Item) : Prop where
  filled : i.tree.Filled ↔ ∃ v, i.expression? = some v
  reads : ∀ v, i.expression? = some v → ∀ n, ∃ i' m, Reads n [v] [i'] m ∧
    i'.tree.bare = i.tree.pruned.bare

theorem Condition.rereads (c : Condition) : (Item.condition c).Rereads where
  filled := Tree.filled_condition.trans
    ⟨Condition.exists_of_complete, fun ⟨_, written⟩ => Condition.complete_of_expression? written⟩
  reads := by
    intro v written n
    have known : Expression.headOfToken c.op.token = .condition c.op :=
      Expression.headOfToken_condition_iff.2 rfl
    have read (values : List Json) :
        condition? c.op (.arr [.str "get", .str c.field] :: values) n =
          some ⟨n, c.field, c.op, if c.op.isUnary then none else values.head?⟩ := by
      rw [condition?]
      exact congrArg (Option.map _) (Expression.fieldName?_fieldReference c.field)
    obtain ⟨-, ⟨unary, rfl⟩ | ⟨binary, w, value, -, rfl⟩⟩ := Condition.expression?_cases written
    · refine ⟨_, _, .condition known (read []) (.nil _), ?_⟩
      simp [Item.tree, Tree.pruned, Tree.bare, Tree.renumber, Condition.renumber,
        Condition.cleared, unary]
    · refine ⟨_, _, .condition known (read [w]) (.nil _), ?_⟩
      simp [Item.tree, Tree.pruned, Tree.bare, Tree.renumber, Condition.renumber,
        Condition.cleared, binary, value]

theorem rereads_each {is : List Item} (each : ∀ i ∈ is, i.Rereads) (n : NodeId) :
    ∃ is' m, Reads n (written is) is' m ∧
      is'.map (·.tree.bare) = (Tree.prunedEach (is.map Item.tree)).map Tree.bare := by
  induction is generalizing n with
  | nil => exact ⟨[], n, .nil n, rfl⟩
  | cons i rest ih =>
    obtain ⟨first, others⟩ := List.forall_mem_cons.1 each
    rw [written_cons, List.map_cons, Tree.prunedEach]
    -- an item that is not written is one that does not stay
    cases written : i.expression? with
    | none =>
      have empty : ¬ i.tree.Filled := by simp [first.filled, written]
      rw [if_neg empty]
      exact ih others n
    | some v =>
      obtain ⟨i', k, read, same⟩ := first.reads v written n
      obtain ⟨is', m, read', same'⟩ := ih others k
      refine ⟨i' :: is', m, reads_cons_of_each read read', ?_⟩
      rw [if_pos (first.filled.2 ⟨v, written⟩), List.map_cons, List.map_cons, same, same']

/-- The tree of the group of the items that were read. -/
theorem Reading.Reads.tree_group {vs : List Json} {is : List Item} {n m : NodeId}
    (h : Reads n vs is m) (id : NodeId) (j : Junction) :
    (ofItems id j is).tree = .group id j (is.map Item.tree) := by
  rw [tree_eq, h.children_group]
  rfl

theorem Group.rereads (g : Group) : g.Intact → (Item.group g).Rereads := by
  induction g using induct with
  | step g ih =>
    intro hg
    refine ⟨filled_tree hg, fun v written n => ?_⟩
    have each : ∀ i ∈ g.children, i.Rereads := by
      intro i hi
      obtain ⟨c, -, rfl⟩ | ⟨x, hx, rfl⟩ := mem_of_mem_children hi
      · exact c.rereads
      · exact ih x hx (hg.of_mem (mem_family_of_mem hx))
    rw [Item.expression?, expression?_eq] at written
    obtain ⟨-, rfl⟩ := joined?_eq_some_iff.1 written
    obtain ⟨is, m, read, same⟩ := rereads_each each (n + 1)
    refine ⟨_, m, .group (Expression.headOfToken_group_iff.2 rfl) read (.nil m), ?_⟩
    rw [Item.tree, Item.tree, read.tree_group, tree_eq g, Tree.pruned, Tree.bare_group,
      Tree.bare_group, List.map_map, ← same]
    rfl

/-- A group that is given by itself is read as it is read among others. -/
theorem Reading.reads_ofExpression (j : Junction) (children : List Json) (n : NodeId) :
    let e := .arr (.str j.token :: children)
    Reads n [e] [.group (ofExpression e n).root] (ofExpression e n).next := by
  intro e
  obtain ⟨is, root, read⟩ := ofExpression_reads e n
  have head : Expression.head e = .group j := Expression.head_group j children
  have parts : parts e = (j, children) := by
    unfold Reading.parts
    rw [head]
  rw [root, parts]
  rw [parts] at read
  exact .group (Expression.headOfToken_group_iff.2 rfl) read (.nil _)

/-- The outline that is read from what was written is the old one without what is not complete, but
for its ids. -/
theorem Group.bare_reread {g : Group} (hg : g.Intact) {e : Json} (written : g.expression? = some e)
    (n : NodeId) : g.tree.pruned.bare = (ofExpression e n).root.tree.bare := by
  obtain ⟨i, m, read, same⟩ := (g.rereads hg).reads e written n
  obtain ⟨-, j, children, rfl⟩ := canonical_expression? written
  obtain ⟨own, -⟩ := (reads_ofExpression j children n).unique read
  obtain rfl := List.singleton_inj.1 own
  exact same.symm

/-- An intact outline that is another one without what is not complete, but for its ids, is a
renumbering of that. -/
theorem Group.renumbered_pruned {g g' : Group} (hg : g.Intact) (hg' : g'.Intact)
    (same : g.tree.pruned.bare = g'.tree.bare) : g.tree.pruned.Renumbered g'.tree := by
  have unique := (ids_tree hg).nodup_iff.2 hg.unique
  exact Tree.renumbered_of_bare same ((Tree.pruned_ids _).nodup unique)
    ((ids_tree hg').nodup_iff.2 hg'.unique)

/-- Of an outline without a flaw nothing is written exactly if there is no complete condition in it,
and otherwise the outline read from what is written is its tree without what is not complete, with
other ids. -/
theorem Group.reread_pruned {g : Group} (h : g.checkIntegrity = .ok ()) (n : NodeId) :
    (g.expression? = none ↔ ∀ c ∈ g.leaves, ¬ c.Complete) ∧
      ∀ e, g.expression? = some e → g.tree.pruned.Renumbered (ofExpression e n).root.tree := by
  have hg := check_iff.1 h
  refine ⟨expression?_eq_none_iff hg, fun e written => ?_⟩
  exact renumbered_pruned hg (intact_ofExpression e n) (bare_reread hg written n)

/-- An outline whose children stand in another row than they arrived in, with conditions and a group
that are not complete, a value that its operator does not take, and one that looks like a group. -/
def Group.mixed : Group where
  id := 5
  junction := .any
  conditions := [⟨3, "a", .equal, some (.arr [.str "all", .arr []])⟩,
    ⟨8, "b", .has, some (.int 7)⟩, ⟨2, "", .equal, some (.int 1)⟩]
  groups := [⟨4, .all, [⟨9, "a", .equal, some .null⟩], [], [⟨.condition, 9⟩]⟩]
  order := [⟨.group, 4⟩, ⟨.condition, 8⟩, ⟨.condition, 2⟩, ⟨.condition, 3⟩]

theorem Group.reread_pruned_mixed :
    let e := .arr [.str "any", .arr [.str "has", Expression.fieldReference "b"],
      .arr [.str "==", Expression.fieldReference "a", .arr [.str "all", .arr []]]]
    mixed.checkIntegrity = .ok () ∧ mixed.expression? = some e ∧
      mixed.tree.pruned = .group 5 .any [.condition ⟨8, "b", .has, none⟩,
        .condition ⟨3, "a", .equal, some (.arr [.str "all", .arr []])⟩] ∧
      mixed.tree.pruned.Renumbered (ofExpression e 1).root.tree := by
  intro e
  have ordered : ∀ x ∈ mixed.family, x.order.Perm x.refs := by decide
  have unflawed : mixed.checkIntegrity = .ok () := check_iff.2 ⟨by decide, ordered⟩
  have written : mixed.expression? = some e := rfl
  exact ⟨unflawed, written, rfl, (reread_pruned unflawed 1).2 e written⟩

end FieldFilter
