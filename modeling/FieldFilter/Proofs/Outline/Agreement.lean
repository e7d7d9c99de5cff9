import FieldFilter.Proofs.Outline.Integrity
import FieldFilter.Proofs.Outline.Moves
import Mathlib.Data.Finset.Card
import Mathlib.Data.List.TFAE
import Mathlib.Order.Bounds.Defs

/-!
# Look-ups that agree

The look-ups search an outline in different ways: some by the conditions and groups that its groups
hold, some by the entries of their orders, and each takes the first answer. In an outline without a
flaw they describe one tree (`LookupsAgree`). Each of them finds something for the nodes that the
outline has, `g.Has kind id`, and for no other ids. The order of one group only has an entry for a
node: that group is the parent that is found (`findParent?_iff`), and the node is taken out of it
(`detach_from_parent`).
-/

namespace FieldFilter.Group

/-- The node of a kind that is found by its id. -/
def node? (g : Group) (kind : Kind) (id : NodeId) : Option Item :=
  match kind with
  | .condition => (g.findCondition? id).map .condition
  | .group => (g.findGroup? id).map .group

/-- All look-ups describe the same tree. -/
structure LookupsAgree (g : Group) : Prop where
  /-- The look-ups for groups succeed together, for the root and for what a group has as a child. -/
  groups : ∀ id, List.TFAE [g.contains .group id = true, ∃ x, g.findGroup? id = some x,
    ∃ d, g.depth? id = some d, id = g.id ∨ ∃ p, g.findParent? .group id = some p]
  conditions : ∀ id, List.TFAE [g.contains .condition id = true,
    ∃ c, g.findCondition? id = some c, ∃ p, g.findParent? .condition id = some p]
  kinds : ∀ id, ¬ (g.contains .condition id = true ∧ g.contains .group id = true)
  root : g.findParent? .group g.id = none
  /-- The parent is a group of the outline, and the node has its place in it. -/
  parent : ∀ kind id p, g.findParent? kind id = some p →
    g.findGroup? p.id = some p ∧ ∃ i, p.position? id = some i ∧ p.order[i]? = some ⟨kind, id⟩
  depth : ∀ id p, g.findParent? .group id = some p →
    ∃ d, g.depth? p.id = some d ∧ g.depth? id = some (d + 1)
  /-- The node is taken out of its parent, and only there does the outline change. -/
  detach : ∀ kind id p, g.findParent? kind id = some p →
    ∃ g' p' item, g.detach kind id = some (g', p.id, item) ∧ g.node? kind id = some item ∧
      p.detachChild kind id = some (p', item) ∧ Replaced p p' g g' ∧ g'.contains kind id = false
  /-- What has no parent, the root included, stays. -/
  stays : ∀ kind id, g.findParent? kind id = none → g.detach kind id = none
  height : IsGreatest {d | ∃ id, g.depth? id = some d} g.height
  children : ∀ x ∈ g.family, x.children.map Item.ref = x.order
  size : g.size = g.ids.toFinset.card

section
variable {kind : Kind} {id origin : NodeId} {item : Item} {g g' p : Group}

/-! ## Parents -/

/-- The parent that is found is the one group whose order has an entry for the node. -/
theorem findParent?_iff (hg : g.Intact) :
    g.findParent? kind id = some p ↔ p ∈ g.family ∧ ⟨kind, id⟩ ∈ p.order := by
  have found : ∀ x, g.findParent? kind id = some x → x ∈ g.family ∧ ⟨kind, id⟩ ∈ x.order := by
    intro x h
    obtain ⟨hx, held⟩ := mem_of_search_ite h
    exact ⟨hx, by simpa using held⟩
  constructor
  · exact found p
  · intro ⟨hp, held⟩
    have able : g.findParent? kind id ≠ none := search_ne_none (by simp [held]) g hp
    obtain ⟨x, hx⟩ := Option.ne_none_iff_exists'.1 able
    obtain ⟨stands, held'⟩ := found x hx
    rw [hx, eq_of_held hg stands hp held' held]

/-- A node is taken out of its parent. -/
theorem detach_from_parent (hg : g.Intact) (h : g.detach kind id = some (g', origin, item)) :
    ∃ p p', g.findParent? kind id = some p ∧ p.id = origin ∧
      p.detachChild kind id = some (p', item) ∧ Replaced p p' g g' := by
  obtain ⟨p, p', detached, named, r⟩ := detach_replaced h
  have entry := ref_mem_order detached (hg.ordered p r.mem)
  rw [detach_ref h] at entry
  exact ⟨p, p', (findParent?_iff hg).2 ⟨r.mem, entry⟩, named, detached, r⟩

theorem exists_findParent?_iff (hg : g.Intact) :
    (∃ p, g.findParent? kind id = some p) ↔ ∃ taken, g.detach kind id = some taken := by
  constructor
  · rintro ⟨p, found⟩
    obtain ⟨hp, held⟩ := (findParent?_iff hg).1 found
    exact exists_detach_of_held hg hp held
  · rintro ⟨⟨g', origin, item⟩, taken⟩
    obtain ⟨p, -, found, -⟩ := detach_from_parent hg taken
    exact ⟨p, found⟩

/-- The nodes that have a parent are those below the root. -/
theorem exists_findParent?_iff_has (hg : g.Intact) : (∃ p, g.findParent? kind id = some p) ↔
    g.Has kind id ∧ (kind = .group → id ≠ g.id) := by
  rw [exists_findParent?_iff hg, exists_detach_iff hg.unique]

theorem findParent?_root (hg : g.Intact) : g.findParent? .group g.id = none := by
  by_contra found
  obtain ⟨-, below⟩ := (exists_findParent?_iff_has hg).1 (Option.ne_none_iff_exists'.1 found)
  exact below rfl rfl

/-- What has no parent cannot be taken out. -/
theorem detach_eq_none (hg : g.Intact) (absent : g.findParent? kind id = none) :
    g.detach kind id = none := by
  by_contra able
  obtain ⟨p, found⟩ := (exists_findParent?_iff hg).2 (Option.ne_none_iff_exists'.1 able)
  cases absent.symm.trans found

/-- The entry that stands at the place of a node is its own. -/
theorem position?_of_held (ordered : p.Ordered) (ids : p.ids.Nodup) (held : ⟨kind, id⟩ ∈ p.order) :
    ∃ i, p.position? id = some i ∧ p.order[i]? = some ⟨kind, id⟩ := by
  obtain ⟨i, place⟩ := Option.isSome_iff_exists.1 ((position?_isSome p id).2 ⟨_, held, rfl⟩)
  obtain ⟨front, r, back, split, rfl, own⟩ := split_of_findIdx? place
  have hr : r ∈ p.order := by simp [split]
  have same : r = ⟨kind, id⟩ :=
    List.inj_on_of_nodup_map (nodup_order_ids ordered ids) hr held (by simpa using own)
  exact ⟨_, place, by simp [split, same]⟩

/-- A group stands one group deeper than its parent. -/
theorem depth?_of_held (hg : g.Intact) (hp : p ∈ g.family) (held : ⟨.group, id⟩ ∈ p.order) :
    ∃ d, g.depth? p.id = some d ∧ g.depth? id = some (d + 1) := by
  obtain ⟨n, stands⟩ := exists_sits g p hp
  obtain ⟨x, hx, rfl⟩ := List.mem_map.1 (group_mem_refs.1 ((hg.ordered p hp).mem_iff.1 held))
  exact ⟨n + 1, stands.depth? hg.unique, (stands.trans (.inside hx (.here x))).depth? hg.unique⟩

/-! ## Nodes -/

/-- What is taken out is the node that is found. -/
theorem node?_of_detach (ids : g.ids.Nodup) (h : g.detach kind id = some (g', origin, item)) :
    g.node? kind id = some item := by
  have ref := detach_ref h
  cases item with
  | condition c =>
    obtain ⟨rfl, rfl⟩ := ChildRef.mk.inj ref
    have hc : c ∈ g.leaves := (detach_leaves h).mem_iff.2 (by simp [Item.leaves])
    obtain ⟨d, found⟩ := exists_findCondition?_iff.2 ⟨c, hc, rfl⟩
    obtain ⟨hd, same⟩ := findCondition?_eq_some found
    obtain rfl := leaf_eq_of_id ids hc hd same.symm
    exact congrArg (Option.map Item.condition) found
  | group x =>
    obtain ⟨rfl, rfl⟩ := ChildRef.mk.inj ref
    obtain ⟨hx, -⟩ := mem_of_detach h
    exact congrArg (Option.map Item.group) (findGroup?_of_mem ids hx)

/-- A node with a parent is taken out of it, and is gone. -/
theorem detach_of_parent (hg : g.Intact) (found : g.findParent? kind id = some p) :
    ∃ g' p' item, g.detach kind id = some (g', p.id, item) ∧ g.node? kind id = some item ∧
      p.detachChild kind id = some (p', item) ∧ Replaced p p' g g' ∧
      g'.contains kind id = false := by
  obtain ⟨⟨g', origin, item⟩, taken⟩ := (exists_findParent?_iff hg).1 ⟨p, found⟩
  obtain ⟨q, p', found', rfl, detached, r⟩ := detach_from_parent hg taken
  obtain rfl := Option.some.inj (found'.symm.trans found)
  have gone : ¬ g'.contains kind id = true := by
    rw [contains_iff]
    intro left
    have same : item.id = id := congrArg ChildRef.id (detach_ref taken)
    exact ids_apart_of_detach hg.unique taken item.id_mem_ids (same ▸ left.mem_ids)
  exact ⟨g', p', item, taken, node?_of_detach hg.unique taken, detached, r, by simpa using gone⟩

/-! ## Kinds -/

/-- The look-ups for groups find something for the groups of the outline. -/
theorem groups_tfae (hg : g.Intact) : List.TFAE [g.contains .group id = true,
    ∃ x, g.findGroup? id = some x, ∃ d, g.depth? id = some d,
    id = g.id ∨ ∃ p, g.findParent? .group id = some p] := by
  have own : g.Has .group g.id := ⟨g, mem_family_self g, rfl⟩
  have root_or_child : (id = g.id ∨ ∃ p, g.findParent? .group id = some p) ↔ g.Has .group id := by
    rw [exists_findParent?_iff_has hg]
    by_cases same : id = g.id
    · simp [same, own]
    · simp [same]
  apply List.tfae_of_forall (g.Has .group id)
  simp only [List.forall_mem_cons]
  exact ⟨contains_iff, exists_findGroup?_iff, exists_depth?_iff, root_or_child, nofun⟩

/-- The look-ups for conditions find something for the conditions of the outline. -/
theorem conditions_tfae (hg : g.Intact) : List.TFAE [g.contains .condition id = true,
    ∃ c, g.findCondition? id = some c, ∃ p, g.findParent? .condition id = some p] := by
  have child : (∃ p, g.findParent? .condition id = some p) ↔ g.Has .condition id := by
    simp [exists_findParent?_iff_has hg]
  apply List.tfae_of_forall (g.Has .condition id)
  simp only [List.forall_mem_cons]
  exact ⟨contains_iff, exists_findCondition?_iff, child, nofun⟩

/-- No id is that of a condition and of a group. -/
theorem not_contains_both (ids : g.ids.Nodup) :
    ¬ (g.contains .condition id = true ∧ g.contains .group id = true) := by
  rw [contains_iff, contains_iff]
  rintro ⟨⟨c, hc, rfl⟩, ⟨x, hx, same⟩⟩
  have apart := (List.nodup_append.1 (g.ids_perm.nodup_iff.1 ids)).2.2
  exact apart x.id (List.mem_map_of_mem hx) c.id (List.mem_map_of_mem hc) same

/-! ## The whole outline -/

/-- Every entry of an order stands for a child. -/
theorem children_refs (ordered : g.Ordered) (ids : g.ids.Nodup) :
    g.children.map Item.ref = g.order := by
  have resolved : ∀ r ∈ g.order, (g.child? r).map Item.ref = some r := by
    intro r hr
    obtain ⟨c, -, rfl, found⟩ | ⟨x, -, rfl, found⟩ := child?_of_mem_order ordered ids hr
    all_goals
      rw [found]
      rfl
  rw [children, List.map_filterMap, List.filterMap_congr resolved, List.filterMap_some]

/-- The height is the greatest depth of a group. -/
theorem height_isGreatest (ids : g.ids.Nodup) :
    IsGreatest {d | ∃ id, g.depth? id = some d} g.height := by
  constructor
  · obtain ⟨n, x, stands, high⟩ := exists_sits_height g
    exact ⟨x.id, by rw [stands.depth? ids, high]⟩
  · rintro d ⟨id, found⟩
    obtain ⟨n, x, rfl, stands, -⟩ := sits_of_depth? g d found
    have reach := stands.height_le
    have pos := x.height_pos
    omega

theorem card_ids (ids : g.ids.Nodup) : g.size = g.ids.toFinset.card := by
  rw [List.toFinset_card_of_nodup ids, g.ids_perm.length_eq, size_eq, List.length_append,
    List.length_map, List.length_map, Nat.add_comm]

theorem Intact.lookupsAgree (hg : g.Intact) : g.LookupsAgree where
  groups := fun _ => groups_tfae hg
  conditions := fun _ => conditions_tfae hg
  kinds := fun _ => not_contains_both hg.unique
  root := findParent?_root hg
  parent := by
    intro kind id p found
    obtain ⟨hp, held⟩ := (findParent?_iff hg).1 found
    exact ⟨findGroup?_of_mem hg.unique hp,
      position?_of_held (hg.ordered p hp) (hg.of_mem hp).unique held⟩
  depth := by
    intro id p found
    obtain ⟨hp, held⟩ := (findParent?_iff hg).1 found
    exact depth?_of_held hg hp held
  detach := fun _ _ _ found => detach_of_parent hg found
  stays := fun _ _ absent => detach_eq_none hg absent
  height := height_isGreatest hg.unique
  children := fun x hx => children_refs (hg.ordered x hx) (hg.of_mem hx).unique
  size := card_ids hg.unique

end

/-- In an outline without a flaw all look-ups describe the same tree. -/
theorem lookups_agree {g : Group} (h : g.checkIntegrity = .ok ()) : g.LookupsAgree :=
  (check_iff.1 h).lookupsAgree

/-- A group of a condition and a group that stands in front of it and holds another condition. -/
def nested : Group where
  id := 6
  junction := .any
  conditions := [⟨2, "a", .has, none⟩]
  groups := [⟨4, .all, [⟨9, "b", .has, none⟩], [], [⟨.condition, 9⟩]⟩]
  order := [⟨.group, 4⟩, ⟨.condition, 2⟩]

/-- The inner group is found in the outer one and is taken out of it. -/
theorem lookups_agree_nested :
    nested.checkIntegrity = .ok () ∧ nested.LookupsAgree ∧ nested.height = 2 ∧
      nested.findParent? .group 4 = some nested ∧
      ∃ g' item, nested.detach .group 4 = some (g', 6, item) ∧ g'.contains .group 4 = false := by
  have ordered : ∀ x ∈ nested.family, x.order.Perm x.refs := by decide
  have unflawed : nested.checkIntegrity = .ok () := check_iff.2 ⟨by decide, ordered⟩
  have agree := lookups_agree unflawed
  obtain ⟨g', -, item, taken, -, -, -, gone⟩ := agree.detach .group 4 nested rfl
  exact ⟨unflawed, agree, rfl, rfl, g', item, taken, gone⟩

end FieldFilter.Group
