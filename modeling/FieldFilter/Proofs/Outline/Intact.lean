import FieldFilter.Proofs.Outline.Nodes
import Mathlib.Data.List.InsertIdx
import Mathlib.Data.List.Nodup

/-!
# Intact outlines

An outline is intact when no id occurs twice in it and every group orders exactly the children that
it holds. The two ways in which children come and go keep it so: `Intact.insert` for a node none of
whose ids are in use, `Intact.detach` for any node. What they do to the ids and the conditions of
the outline is `insert_ids`, `insert_leaves`, `detach_ids` and `detach_leaves`.
-/

namespace FieldFilter

namespace Item

/-- The groups of a node with everything below it. -/
def family : Item → List Group
  | condition _ => []
  | group g => g.family

def ids : Item → List NodeId
  | condition c => [c.id]
  | group g => g.ids

def leaves : Item → List Condition
  | condition c => [c]
  | group g => g.leaves

theorem id_mem_ids (i : Item) : i.id ∈ i.ids := by
  cases i with
  | condition c => exact List.mem_singleton.2 rfl
  | group g => exact g.id_mem_ids

end Item

namespace Group

/-- The entries for the children that a group holds, as they arrived. -/
def refs (g : Group) : List ChildRef :=
  g.conditions.map (fun c => ⟨.condition, c.id⟩) ++ g.groups.map (fun h => ⟨.group, h.id⟩)

theorem condition_mem_refs {g : Group} {id : NodeId} :
    ⟨.condition, id⟩ ∈ g.refs ↔ id ∈ g.conditions.map Condition.id := by
  simp [refs]

theorem group_mem_refs {g : Group} {id : NodeId} :
    ⟨.group, id⟩ ∈ g.refs ↔ id ∈ g.groups.map Group.id := by
  simp [refs]

/-- The order lists the children that the group holds, each once. -/
def Ordered (g : Group) : Prop := g.order.Perm g.refs

instance (g : Group) : Decidable g.Ordered := inferInstanceAs (Decidable (g.order.Perm g.refs))

structure Intact (g : Group) : Prop where
  unique : g.ids.Nodup
  ordered : ∀ h ∈ g.family, h.Ordered

instance (g : Group) : Decidable g.Intact :=
  decidable_of_iff (g.ids.Nodup ∧ ∀ h ∈ g.family, h.Ordered)
    ⟨fun ⟨unique, ordered⟩ => ⟨unique, ordered⟩, fun hg => ⟨hg.unique, hg.ordered⟩⟩

theorem intact_empty (id : NodeId) (j : Junction) : (empty id j).Intact where
  unique := List.nodup_singleton id
  ordered := by
    intro h hm
    obtain rfl := List.mem_singleton.1 hm
    exact List.Perm.nil

/-- The ids of one of the subgroups, and the others. -/
theorem ids_middle (id : NodeId) (j : Junction) (cs : List Condition) (before rest : List Group)
    (x : Group) (order order' : List ChildRef) :
    (ids ⟨id, j, cs, before ++ x :: rest, order⟩).Perm
      (x.ids ++ ids ⟨id, j, cs, before ++ rest, order'⟩) := by
  rw [ids_eq ⟨id, j, cs, before ++ x :: rest, order⟩, ids_eq ⟨id, j, cs, before ++ rest, order'⟩]
  simpa [ownIds] using List.perm_append_comm_assoc
    (id :: cs.map Condition.id ++ before.flatMap ids) x.ids (rest.flatMap ids)

theorem nodup_conditions {g : Group} (h : g.ids.Nodup) : (g.conditions.map Condition.id).Nodup := by
  rw [ids_eq, ownIds, List.cons_append, List.nodup_cons, List.nodup_append] at h
  exact h.2.1

theorem nodup_groups {g : Group} (h : g.ids.Nodup) : (g.groups.map Group.id).Nodup := by
  rw [ids_eq, List.nodup_append, List.nodup_flatMap] at h
  refine List.pairwise_map.2 (h.2.1.2.imp_of_mem fun {a b} _ _ apart same => ?_)
  exact apart (id_mem_ids a) (same ▸ id_mem_ids b)

/-- Ids that differ all over an outline differ among the children of each group. -/
theorem nodup_refs_ids {g : Group} (h : g.ids.Nodup) : (g.refs.map ChildRef.id).Nodup := by
  have conditions := nodup_conditions h
  have groups := nodup_groups h
  rw [ids_eq, ownIds, List.cons_append, List.nodup_cons, List.nodup_append] at h
  rw [refs, List.map_append, List.map_map, List.map_map]
  refine List.nodup_append.2 ⟨conditions, groups, fun a ha b hb => ?_⟩
  obtain ⟨x, hx, rfl⟩ := List.mem_map.1 hb
  exact h.2.2.2 a ha x.id (List.mem_flatMap.2 ⟨x, hx, x.id_mem_ids⟩)

theorem nodup_refs {g : Group} (h : g.ids.Nodup) : g.refs.Nodup := .of_map _ (nodup_refs_ids h)

theorem nodup_of_mem {g h : Group} (hm : h ∈ g.family) (hg : g.ids.Nodup) : h.ids.Nodup := by
  induction g using induct with
  | step g ih =>
    obtain rfl | ⟨c, hc, hm⟩ := mem_family_iff.1 hm
    · exact hg
    · rw [ids_eq, List.nodup_append] at hg
      exact ih c hc hm ((List.nodup_flatMap.1 hg.2.1).1 c hc)

theorem Intact.of_mem {g h : Group} (hg : g.Intact) (hm : h ∈ g.family) : h.Intact where
  unique := nodup_of_mem hm hg.unique
  ordered := fun x hx => hg.ordered x (mem_family_trans hx hm)

/-- A replaced group leaves the groups around it ordered, if it keeps its id. -/
theorem Replaced.ordered {h h' g g' : Group} (r : Replaced h h' g g') (same : h'.id = h.id)
    (new : ∀ x ∈ h'.family, x.Ordered) (old : ∀ x ∈ g.family, x.Ordered) :
    ∀ x ∈ g'.family, x.Ordered := by
  induction r with
  | here => exact new
  | @inside c c' id j cs before rest order r ih =>
    intro x hx
    have below (y : Group) (hy : y ∈ before ++ c :: rest) : ∀ z ∈ y.family, z.Ordered :=
      fun z hz => old z (mem_family_iff.2 (.inr ⟨y, hy, hz⟩))
    obtain rfl | ⟨y, hy, within⟩ := mem_family_iff.1 hx
    · have whole := old _ (mem_family_self _)
      simpa [Ordered, refs, r.id_eq same] using whole
    · have hy : y ∈ before ∨ y = c' ∨ y ∈ rest := by simpa using hy
      obtain hy | rfl | hy := hy
      · exact below y (by simp [hy]) x within
      · exact ih (below c (by simp)) x within
      · exact below y (by simp [hy]) x within

/-! ## Inserting -/

theorem insertChild_id (item : Item) (index : Option Nat) (g : Group) :
    (insertChild item index g).id = g.id := by
  cases item <;> rfl

theorem insertChild_junction (item : Item) (index : Option Nat) (g : Group) :
    (insertChild item index g).junction = g.junction := by
  cases item <;> rfl

theorem ids_insertChild (item : Item) (index : Option Nat) (g : Group) :
    (insertChild item index g).ids.Perm (item.ids ++ g.ids) := by
  cases item with
  | condition c =>
    have h : (g.conditions.map Condition.id ++ [c.id]).Perm
        (c.id :: g.conditions.map Condition.id) := List.perm_append_singleton ..
    simpa [ids_eq, insertChild, ownIds, Item.ids] using
      ((h.cons g.id).trans (List.Perm.swap ..)).append_right (g.groups.flatMap ids)
  | group h =>
    rw [ids_eq (insertChild (.group h) index g), ids_eq g]
    simpa [insertChild, ownIds, Item.ids] using
      @List.perm_append_comm _ (g.ownIds ++ g.groups.flatMap ids) h.ids

theorem leaves_insertChild (item : Item) (index : Option Nat) (g : Group) :
    (insertChild item index g).leaves.Perm (item.leaves ++ g.leaves) := by
  cases item with
  | condition c =>
    simp [leaves_eq, insertChild, Item.leaves]
  | group h =>
    rw [leaves_eq (insertChild (.group h) index g), leaves_eq g]
    simpa [insertChild, Item.leaves] using
      @List.perm_append_comm _ (g.conditions ++ g.groups.flatMap leaves) h.leaves

theorem mem_family_insertChild {item : Item} {index : Option Nat} {g x : Group}
    (hx : x ∈ (insertChild item index g).family) :
    x = insertChild item index g ∨ x ∈ item.family ∨ x ∈ g.family := by
  obtain rfl | ⟨y, hy, within⟩ := mem_family_iff.1 hx
  · exact .inl rfl
  · cases item with
    | condition c => exact .inr (.inr (mem_family_iff.2 (.inr ⟨y, hy, within⟩)))
    | group h =>
      have hy : y ∈ g.groups ∨ y = h := by simpa [insertChild] using hy
      obtain hy | rfl := hy
      · exact .inr (.inr (mem_family_iff.2 (.inr ⟨y, hy, within⟩)))
      · exact .inr (.inl within)

theorem ordered_insertChild {g : Group} (hg : g.Ordered) (item : Item) (index : Option Nat) :
    (insertChild item index g).Ordered := by
  have order := List.perm_insertIdx item.ref g.order
    (Nat.min_le_right (index.getD g.order.length) g.order.length)
  have put := order.trans (hg.cons item.ref)
  cases item with
  | condition c =>
    refine put.trans ?_
    simpa [refs, insertChild, Item.ref, Item.kind, Item.id] using List.perm_middle.symm
  | group h =>
    refine put.trans ?_
    simpa [refs, insertChild, Item.ref, Item.kind, Item.id] using
      (List.perm_append_singleton (⟨.group, h.id⟩ : ChildRef) g.refs).symm

theorem ordered_below_insertChild {item : Item} {index : Option Nat} {g : Group}
    (hi : ∀ x ∈ item.family, x.Ordered) (hg : ∀ x ∈ g.family, x.Ordered) :
    ∀ x ∈ (insertChild item index g).family, x.Ordered := by
  intro x hx
  obtain rfl | hx | hx := mem_family_insertChild hx
  · exact ordered_insertChild (hg g (mem_family_self g)) item index
  · exact hi x hx
  · exact hg x hx

theorem intact_insertChild {item : Item} {g : Group} (hg : g.Intact)
    (hi : ∀ x ∈ item.family, x.Ordered) (fresh : (item.ids ++ g.ids).Nodup)
    (index : Option Nat) : (insertChild item index g).Intact where
  unique := (ids_insertChild item index g).nodup_iff.2 fresh
  ordered := ordered_below_insertChild hi hg.ordered

/-- Changing the group with an id is changing one group that has it. -/
theorem modifyGroup_replaced {id : NodeId} {f : Group → Group} {g g' : Group}
    (h : g.modifyGroup id f = some g') : ∃ x, x.id = id ∧ Replaced x (f x) g g' := by
  obtain ⟨⟨_, u⟩, altered, rfl⟩ := Option.map_eq_some_iff.1 h
  obtain ⟨x, x', hx, r⟩ := alter_replaced altered
  by_cases same : x.id = id
  · rw [if_pos same] at hx
    cases hx
    exact ⟨x, same, r⟩
  · rw [if_neg same] at hx
    cases hx

section
variable {id : NodeId} {item : Item} {index : Option Nat} {g g' : Group}

theorem insert_ids (h : g.modifyGroup id (insertChild item index) = some g') :
    g'.ids.Perm (item.ids ++ g.ids) := by
  obtain ⟨x, -, r⟩ := modifyGroup_replaced h
  obtain ⟨rest, old, new⟩ := r.gathered ownIds fun _ _ => rfl
  refine new.trans (((ids_insertChild item index x).append_right rest).trans ?_)
  rw [List.append_assoc]
  exact old.symm.append_left item.ids

theorem insert_leaves (h : g.modifyGroup id (insertChild item index) = some g') :
    g'.leaves.Perm (item.leaves ++ g.leaves) := by
  obtain ⟨x, -, r⟩ := modifyGroup_replaced h
  obtain ⟨rest, old, new⟩ := r.gathered conditions fun _ _ => rfl
  refine new.trans (((leaves_insertChild item index x).append_right rest).trans ?_)
  rw [List.append_assoc]
  exact old.symm.append_left item.leaves

theorem insert_root (h : g.modifyGroup id (insertChild item index) = some g') : g'.id = g.id := by
  obtain ⟨x, -, r⟩ := modifyGroup_replaced h
  exact r.id_eq (insertChild_id item index x)

theorem Intact.insert (hg : g.Intact) (hi : ∀ x ∈ item.family, x.Ordered)
    (fresh : (item.ids ++ g.ids).Nodup)
    (h : g.modifyGroup id (insertChild item index) = some g') : g'.Intact where
  unique := (insert_ids h).nodup_iff.2 fresh
  ordered := by
    obtain ⟨x, -, r⟩ := modifyGroup_replaced h
    refine r.ordered (insertChild_id item index x) ?_ hg.ordered
    exact ordered_below_insertChild hi (hg.of_mem r.mem).ordered

end

/-! ## Detaching -/

theorem eraseP_of_find? {l : List α} {p : α → Bool} {a : α} (h : l.find? p = some a) :
    ∃ before rest, l = before ++ a :: rest ∧ l.eraseP p = before ++ rest := by
  obtain ⟨ha, before, rest, rfl, hb⟩ := List.find?_eq_some_iff_append.1 h
  refine ⟨before, rest, rfl, ?_⟩
  rw [List.eraseP_append_right _ (fun b hm => by simpa using hb b hm), List.eraseP_cons_of_pos ha]

/-- What can be taken out of a group stands at one place among the children of its kind. -/
theorem detachChild_split {kind : Kind} {id : NodeId} {g g' : Group} {item : Item}
    (h : g.detachChild kind id = some (g', item)) :
    item.ref = ⟨kind, id⟩ ∧
      ((∃ c before rest, item = .condition c ∧ g.conditions = before ++ c :: rest ∧
          g' = ⟨g.id, g.junction, before ++ rest, g.groups, g.order.filter (· ≠ item.ref)⟩) ∨
        ∃ x before rest, item = .group x ∧ g.groups = before ++ x :: rest ∧
          g' = ⟨g.id, g.junction, g.conditions, before ++ rest,
            g.order.filter (· ≠ item.ref)⟩) := by
  cases kind with
  | condition =>
    obtain ⟨c, found, he⟩ := Option.map_eq_some_iff.1 h
    obtain ⟨rfl, rfl⟩ := Prod.mk.inj he
    obtain ⟨before, rest, split, erased⟩ := eraseP_of_find? found
    have hc : c.id = id := by simpa using List.find?_some found
    subst hc
    refine ⟨rfl, .inl ⟨c, before, rest, rfl, split, ?_⟩⟩
    rw [erased]
    rfl
  | group =>
    obtain ⟨x, found, he⟩ := Option.map_eq_some_iff.1 h
    obtain ⟨rfl, rfl⟩ := Prod.mk.inj he
    obtain ⟨before, rest, split, erased⟩ := eraseP_of_find? found
    have hx : x.id = id := by simpa using List.find?_some found
    subst hx
    refine ⟨rfl, .inr ⟨x, before, rest, rfl, split, ?_⟩⟩
    rw [erased]
    rfl

section
variable {kind : Kind} {id origin : NodeId} {g g' : Group} {item : Item}

theorem detachChild_id (h : g.detachChild kind id = some (g', item)) : g'.id = g.id := by
  obtain ⟨-, ⟨_, _, _, -, -, rfl⟩ | ⟨_, _, _, -, -, rfl⟩⟩ := detachChild_split h <;> rfl

theorem detachChild_junction (h : g.detachChild kind id = some (g', item)) :
    g'.junction = g.junction := by
  obtain ⟨-, ⟨_, _, _, -, -, rfl⟩ | ⟨_, _, _, -, -, rfl⟩⟩ := detachChild_split h <;> rfl

theorem ids_detachChild (h : g.detachChild kind id = some (g', item)) :
    g.ids.Perm (item.ids ++ g'.ids) := by
  obtain ⟨own, j, cs, gs, order⟩ := g
  obtain ⟨-, ⟨c, before, rest, rfl, rfl, rfl⟩ | ⟨x, before, rest, rfl, rfl, rfl⟩⟩ :=
    detachChild_split h
  · simpa [ids_eq, ownIds, Item.ids] using
      @List.perm_middle _ c.id (own :: before.map Condition.id)
        (rest.map Condition.id ++ gs.flatMap ids)
  · exact ids_middle own j cs before rest x order _

theorem leaves_detachChild (h : g.detachChild kind id = some (g', item)) :
    g.leaves.Perm (item.leaves ++ g'.leaves) := by
  obtain ⟨-, ⟨c, before, rest, rfl, split, rfl⟩ | ⟨x, before, rest, rfl, split, rfl⟩⟩ :=
    detachChild_split h
  · simp [leaves_eq, split, Item.leaves]
  · rw [leaves_eq, leaves_eq, split]
    simpa [Item.leaves] using
      List.perm_append_comm_assoc (g.conditions ++ before.flatMap leaves) x.leaves
        (rest.flatMap leaves)

theorem refs_detachChild (h : g.detachChild kind id = some (g', item)) :
    g.refs.Perm (item.ref :: g'.refs) := by
  obtain ⟨-, ⟨c, before, rest, rfl, split, rfl⟩ | ⟨x, before, rest, rfl, split, rfl⟩⟩ :=
    detachChild_split h
  · simp [refs, split, Item.ref, Item.kind, Item.id]
  · simp only [refs, split, List.map_append, List.map_cons, ← List.append_assoc]
    exact List.perm_middle

/-- A child that can be taken out has an entry. -/
theorem ref_mem_order (h : g.detachChild kind id = some (g', item)) (ordered : g.Ordered) :
    item.ref ∈ g.order :=
  ordered.mem_iff.2 ((refs_detachChild h).mem_iff.2 List.mem_cons_self)

theorem order_detachChild (h : g.detachChild kind id = some (g', item)) :
    g'.order = g.order.filter (· ≠ item.ref) := by
  obtain ⟨-, ⟨_, _, _, -, -, rfl⟩ | ⟨_, _, _, -, -, rfl⟩⟩ := detachChild_split h <;> rfl

/-- The groups that are left were there before. -/
theorem mem_family_detachChild (h : g.detachChild kind id = some (g', item)) {x : Group} :
    x ∈ g'.family → x = g' ∨ x ∈ g.family := by
  intro hx
  obtain rfl | ⟨y, hy, within⟩ := mem_family_iff.1 hx
  · exact .inl rfl
  · refine .inr (mem_family_iff.2 (.inr ⟨y, ?_, within⟩))
    obtain ⟨-, ⟨_, _, _, -, -, rfl⟩ | ⟨_, _, _, -, split, rfl⟩⟩ := detachChild_split h
    · exact hy
    · rw [split]
      exact List.mem_append.2 ((List.mem_append.1 hy).imp_right (List.mem_cons_of_mem _))

theorem item_family_detachChild (h : g.detachChild kind id = some (g', item)) {x : Group}
    (hx : x ∈ item.family) : x ∈ g.family := by
  obtain ⟨-, ⟨_, _, _, rfl, -, -⟩ | ⟨y, _, _, rfl, split, -⟩⟩ := detachChild_split h
  · cases hx
  · exact mem_family_iff.2 (.inr ⟨y, by simp [split], hx⟩)

/-- Entries other than those that are there can be removed. -/
theorem filter_ne_of_not_mem {l : List ChildRef} {r : ChildRef} (absent : r ∉ l) :
    l.filter (· ≠ r) = l := by
  refine List.filter_eq_self.2 fun q hq => ?_
  simpa using fun same : q = r => absent (same ▸ hq)

/-- An element that is not kept can be left out. -/
theorem filter_skip {α : Type} {p : α → Bool} {a : α} (before rest : List α)
    (pass : ¬ p a = true) : (before ++ a :: rest).filter p = (before ++ rest).filter p := by
  rw [List.filter_append, List.filter_cons_of_neg pass, ← List.filter_append]

theorem filter_ne_middle {front back : List ChildRef} {r : ChildRef} (absent : r ∉ front ++ back) :
    (front ++ r :: back).filter (· ≠ r) = front ++ back := by
  rw [filter_skip front back (by simp), filter_ne_of_not_mem absent]

/-- Every entry for the child that was taken out is gone, and no other one. -/
theorem ordered_detachChild (h : g.detachChild kind id = some (g', item)) (hg : g.Ordered)
    (unique : g.refs.Nodup) : g'.Ordered := by
  have split := refs_detachChild h
  obtain ⟨absent, -⟩ := List.nodup_cons.1 (split.nodup_iff.1 unique)
  have kept : (item.ref :: g'.refs).filter (· ≠ item.ref) = g'.refs := by
    rw [List.filter_cons_of_neg (by simp), filter_ne_of_not_mem absent]
  rw [Ordered, order_detachChild h, ← kept]
  exact (hg.trans split).filter _

theorem intact_detachChild (hg : g.Intact) (h : g.detachChild kind id = some (g', item)) :
    g'.Intact where
  unique := (List.nodup_append.1 ((ids_detachChild h).nodup_iff.1 hg.unique)).2.1
  ordered := by
    intro x hx
    obtain rfl | hx := mem_family_detachChild h hx
    · exact ordered_detachChild h (hg.ordered g (mem_family_self g)) (nodup_refs hg.unique)
    · exact hg.ordered x hx

theorem detach_replaced (h : g.detach kind id = some (g', origin, item)) :
    ∃ x x', x.detachChild kind id = some (x', item) ∧ x.id = origin ∧ Replaced x x' g g' := by
  obtain ⟨x, x', hx, r⟩ := alter_replaced h
  obtain ⟨⟨y, i⟩, detached, he⟩ := Option.map_eq_some_iff.1 hx
  obtain ⟨rfl, rfl, rfl⟩ : y = x' ∧ x.id = origin ∧ i = item := by simpa using he
  exact ⟨x, y, detached, rfl, r⟩

/-- What is taken out is what was asked for. -/
theorem detach_ref (h : g.detach kind id = some (g', origin, item)) : item.ref = ⟨kind, id⟩ := by
  obtain ⟨x, x', detached, -, -⟩ := detach_replaced h
  exact (detachChild_split detached).1

/-- The groups that are taken out are groups of the outline. -/
theorem detach_family (h : g.detach kind id = some (g', origin, item)) {x : Group}
    (hx : x ∈ item.family) : x ∈ g.family := by
  obtain ⟨y, y', detached, -, r⟩ := detach_replaced h
  exact mem_family_trans (item_family_detachChild detached hx) r.mem

theorem detach_ids (h : g.detach kind id = some (g', origin, item)) :
    g.ids.Perm (item.ids ++ g'.ids) := by
  obtain ⟨x, x', detached, -, r⟩ := detach_replaced h
  obtain ⟨rest, old, new⟩ := r.gathered ownIds fun _ _ => rfl
  refine old.trans (((ids_detachChild detached).append_right rest).trans ?_)
  rw [List.append_assoc]
  exact new.symm.append_left item.ids

/-- The ids that are taken out with a node are left to no node. -/
theorem ids_apart_of_detach (ids : g.ids.Nodup) (h : g.detach kind id = some (g', origin, item))
    {n : NodeId} (within : n ∈ item.ids) : n ∉ g'.ids := by
  intro left
  have apart := (List.nodup_append.1 ((detach_ids h).nodup_iff.1 ids)).2.2
  exact apart n within n left rfl

theorem detach_leaves (h : g.detach kind id = some (g', origin, item)) :
    g.leaves.Perm (item.leaves ++ g'.leaves) := by
  obtain ⟨x, x', detached, -, r⟩ := detach_replaced h
  obtain ⟨rest, old, new⟩ := r.gathered conditions fun _ _ => rfl
  refine old.trans (((leaves_detachChild detached).append_right rest).trans ?_)
  rw [List.append_assoc]
  exact new.symm.append_left item.leaves

theorem detach_root (h : g.detach kind id = some (g', origin, item)) : g'.id = g.id := by
  obtain ⟨x, x', detached, -, r⟩ := detach_replaced h
  exact r.id_eq (detachChild_id detached)

theorem Intact.detach (hg : g.Intact) (h : g.detach kind id = some (g', origin, item)) :
    g'.Intact where
  unique := (List.nodup_append.1 ((detach_ids h).nodup_iff.1 hg.unique)).2.1
  ordered := by
    obtain ⟨x, x', detached, -, r⟩ := detach_replaced h
    refine r.ordered (detachChild_id detached) ?_ hg.ordered
    exact (intact_detachChild (hg.of_mem r.mem) detached).ordered

/-- What is taken out of an intact outline is intact itself. -/
theorem Intact.detached (hg : g.Intact) (h : g.detach kind id = some (g', origin, item)) :
    ∀ x ∈ item.family, x.Ordered :=
  fun x hx => hg.ordered x (detach_family h hx)

/-- Where a node that was taken out is put in again, the outline is intact. -/
theorem Intact.move {target : NodeId} {index : Option Nat} {rest : Group} (hg : g.Intact)
    (detached : g.detach kind id = some (rest, origin, item))
    (inserted : rest.modifyGroup target (insertChild item index) = some g') : g'.Intact :=
  (hg.detach detached).insert (hg.detached detached)
    ((detach_ids detached).nodup_iff.1 hg.unique) inserted

end

/-! ## Changing a node -/

theorem modifyFirst_split {id : NodeId} {f : Condition → Condition} {cs cs' : List Condition}
    (h : modifyFirst id f cs = some cs') :
    ∃ before c rest, cs = before ++ c :: rest ∧ c.id = id ∧ cs' = before ++ f c :: rest := by
  induction cs generalizing cs' with
  | nil => cases h
  | cons c rest ih =>
    simp only [modifyFirst] at h
    split at h
    · rename_i same
      obtain rfl := Option.some.inj h
      exact ⟨[], c, rest, rfl, same, rfl⟩
    · obtain ⟨after, found, rfl⟩ := Option.map_eq_some_iff.1 h
      obtain ⟨before, d, rest, rfl, same, rfl⟩ := ih found
      exact ⟨c :: before, d, rest, rfl, same, rfl⟩

/-- Changing the condition with an id is changing it among the conditions of one group. -/
theorem modifyCondition_replaced {id : NodeId} {f : Condition → Condition} {g g' : Group}
    (h : g.modifyCondition id f = some g') :
    ∃ x before c rest, x.conditions = before ++ c :: rest ∧ c.id = id ∧
      Replaced x { x with conditions := before ++ f c :: rest } g g' := by
  obtain ⟨⟨_, u⟩, altered, rfl⟩ := Option.map_eq_some_iff.1 h
  obtain ⟨x, x', hx, r⟩ := alter_replaced altered
  obtain ⟨cs, modified, he⟩ := Option.map_eq_some_iff.1 hx
  obtain ⟨before, c, rest, split, same, rfl⟩ := modifyFirst_split modified
  obtain ⟨rfl, -⟩ := Prod.mk.inj he
  exact ⟨x, before, c, rest, split, same, r⟩

/-- A group that keeps its ids and its order, and its subgroups, leaves the outline intact. -/
theorem Replaced.intact {x x' g g' : Group} (r : Replaced x x' g g') (ids : x'.ownIds = x.ownIds)
    (order : x'.order = x.order) (groups : x'.groups = x.groups) (hg : g.Intact) :
    g'.Intact ∧ g'.ids.Perm g.ids ∧ g'.id = g.id := by
  have same : x'.id = x.id := (List.cons.inj ids).1
  have unchanged : x'.ids = x.ids := by rw [ids_eq, ids_eq, ids, groups]
  obtain ⟨rest, old, new⟩ := r.gathered ownIds fun _ _ => rfl
  have perm : g'.ids.Perm g.ids := by
    refine new.trans (List.Perm.trans ?_ old.symm)
    exact (List.Perm.of_eq unchanged).append_right rest
  have entries : x'.refs = x.refs := by
    have conditions := congrArg (List.map (ChildRef.mk .condition)) (List.cons.inj ids).2
    rw [List.map_map, List.map_map] at conditions
    rw [refs, groups]
    exact congrArg (· ++ _) conditions
  have own : x'.Ordered := by
    rw [Ordered, order, entries]
    exact hg.ordered x r.mem
  refine ⟨⟨perm.nodup_iff.2 hg.unique, r.ordered same (fun y hy => ?_) hg.ordered⟩, perm,
    r.id_eq same⟩
  obtain rfl | ⟨z, hz, within⟩ := mem_family_iff.1 hy
  · exact own
  · exact hg.ordered y (mem_family_trans (mem_family_iff.2 (.inr ⟨z, groups ▸ hz, within⟩)) r.mem)

/-- If the subgroups stay, a condition of the outline is one of the replacing group or was there. -/
theorem Replaced.leaf_cases {x x' g g' : Group} (r : Replaced x x' g g')
    (below : x'.groups = x.groups) {c : Condition} (hc : c ∈ g'.leaves) :
    c ∈ x'.conditions ∨ c ∈ g.leaves := by
  obtain ⟨others, old, new⟩ := r.gathered conditions fun _ _ => rfl
  obtain own | other := List.mem_append.1 (new.mem_iff.1 hc)
  · change c ∈ x'.leaves at own
    rw [leaves_eq, below] at own
    obtain own | lower := List.mem_append.1 own
    · exact .inl own
    · refine .inr (old.mem_iff.2 (List.mem_append_left others ?_))
      change c ∈ x.leaves
      rw [leaves_eq]
      exact List.mem_append_right _ lower
  · exact .inr (old.mem_iff.2 (List.mem_append_right _ other))

/-- Changing a condition changes one of the conditions, and keeps the others. -/
theorem leaf_of_modifyCondition {id : NodeId} {f : Condition → Condition} {g g' : Group}
    (h : g.modifyCondition id f = some g') {c : Condition} (hc : c ∈ g'.leaves) :
    c ∈ g.leaves ∨ ∃ d ∈ g.leaves, c = f d := by
  obtain ⟨x, before, d, rest, split, -, r⟩ := modifyCondition_replaced h
  have kept {d : Condition} (hd : d ∈ x.conditions) : d ∈ g.leaves := mem_leaves_of_mem r.mem hd
  rw [split] at kept
  obtain own | old := r.leaf_cases rfl hc
  · obtain earlier | changed := List.mem_append.1 own
    · exact .inl (kept (List.mem_append_left _ earlier))
    · obtain rfl | later := List.mem_cons.1 changed
      · exact .inr ⟨d, kept (by simp), rfl⟩
      · exact .inl (kept (by simp [later]))
  · exact .inl old

theorem modifyFirst_ne_none {f : Condition → Condition} {c : Condition} {cs : List Condition}
    (hc : c ∈ cs) : modifyFirst c.id f cs ≠ none := by
  induction cs with
  | nil => cases hc
  | cons d rest ih =>
    rw [modifyFirst]
    split
    · simp
    · rename_i other
      obtain rfl | hc := List.mem_cons.1 hc
      · exact absurd rfl other
      · simpa using ih hc

/-- A condition of the outline can be changed. -/
theorem modifyCondition_ne_none {g : Group} {c : Condition} (hc : c ∈ g.leaves)
    (f : Condition → Condition) : g.modifyCondition c.id f ≠ none := by
  obtain ⟨x, hx, hc⟩ := List.mem_flatMap.1 hc
  have own := modifyFirst_ne_none (f := f) hc
  simpa [modifyCondition] using alter_ne_none (by simpa using own) g hx

/-- The changed condition is one of the outline. -/
theorem mem_of_modifyCondition {id : NodeId} {f : Condition → Condition} {g g' : Group}
    (h : g.modifyCondition id f = some g') : ∃ c ∈ g.leaves, c.id = id ∧ f c ∈ g'.leaves := by
  obtain ⟨x, before, c, rest, split, same, r⟩ := modifyCondition_replaced h
  obtain ⟨others, -, new⟩ := r.gathered conditions fun _ _ => rfl
  have held : c ∈ x.conditions := by simp [split]
  refine ⟨c, mem_leaves_of_mem r.mem held, same, ?_⟩
  apply new.mem_iff.2
  apply List.mem_append_left
  exact mem_leaves_of_mem (mem_family_self _) (by simp)

/-! ## Another id for the root -/

theorem ids_rename (g : Group) (id : NodeId) : { g with id := id }.ids = id :: g.ids.tail := by
  rw [ids_eq, ids_eq g]
  rfl

theorem Intact.rename {g : Group} (hg : g.Intact) {id : NodeId} (fresh : id ∉ g.ids.tail) :
    { g with id := id }.Intact where
  unique := by
    rw [ids_rename]
    exact List.nodup_cons.2 ⟨fresh, hg.unique.tail⟩
  ordered := by
    intro x hx
    obtain rfl | ⟨y, hy, within⟩ := mem_family_iff.1 hx
    · exact hg.ordered g (mem_family_self g)
    · exact hg.ordered x (mem_family_iff.2 (.inr ⟨y, hy, within⟩))

end Group

end FieldFilter
