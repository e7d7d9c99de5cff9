import FieldFilter.Proofs.Outline.Height

/-!
# Nodes by their ids

`g.Has kind id` says that a node of the kind has the id. It decides which look-ups find something
(`contains_iff`) and which changes can be made: a group can be changed exactly if the outline has it
(`exists_modifyGroup_iff`), and a node can be taken out exactly if the outline has it below its root
(`exists_detach_iff`). What is put in or changed leaves the outline the conditions that it has
(`Replaced.has_condition`).
-/

namespace FieldFilter.Group

/-- A node of the outline, the root included, has the id. -/
def Has (g : Group) : Kind → NodeId → Prop
  | .condition, id => ∃ c ∈ g.leaves, c.id = id
  | .group, id => ∃ x ∈ g.family, x.id = id

/-! ## Ids -/

theorem mem_ids_of_mem {g x : Group} (hx : x ∈ g.family) {id : NodeId} (hid : id ∈ x.ids) :
    id ∈ g.ids := by
  obtain ⟨y, hy, own⟩ := List.mem_flatMap.1 hid
  exact List.mem_flatMap.2 ⟨y, mem_family_trans hy hx, own⟩

theorem Has.mem_ids {g : Group} {kind : Kind} {id : NodeId} (h : g.Has kind id) : id ∈ g.ids := by
  cases kind with
  | condition =>
    obtain ⟨c, hc, rfl⟩ := h
    obtain ⟨x, hx, hc⟩ := List.mem_flatMap.1 hc
    exact List.mem_flatMap.2 ⟨x, hx, List.mem_cons_of_mem _ (List.mem_map_of_mem hc)⟩
  | group =>
    obtain ⟨x, hx, rfl⟩ := h
    exact mem_ids_of_mem hx x.id_mem_ids

theorem id_mem_ids_of_mem_refs {g : Group} {r : ChildRef} (hr : r ∈ g.refs) : r.id ∈ g.ids := by
  rw [ids_eq]
  obtain own | below := List.mem_append.1 hr
  · obtain ⟨c, hc, rfl⟩ := List.mem_map.1 own
    exact List.mem_append_left _ (List.mem_cons_of_mem _ (List.mem_map_of_mem hc))
  · obtain ⟨x, hx, rfl⟩ := List.mem_map.1 below
    exact List.mem_append_right _ (List.mem_flatMap.2 ⟨x, hx, x.id_mem_ids⟩)

/-! ## Look-ups -/

theorem findGroup?_ne_none {g x : Group} (hx : x ∈ g.family) : g.findGroup? x.id ≠ none :=
  search_ne_none (by simp) g hx

/-- Where ids differ, the group that is found is the one with the id. -/
theorem findGroup?_of_mem {g x : Group} (ids : g.ids.Nodup) (hx : x ∈ g.family) :
    g.findGroup? x.id = some x := by
  obtain ⟨y, found⟩ := Option.ne_none_iff_exists'.1 (findGroup?_ne_none hx)
  obtain ⟨hy, same⟩ := findGroup?_eq_some found
  rw [found, eq_of_id ids hy hx same]

theorem exists_findGroup?_iff {g : Group} {id : NodeId} :
    (∃ x, g.findGroup? id = some x) ↔ g.Has .group id := by
  constructor
  · rintro ⟨x, found⟩
    exact ⟨x, findGroup?_eq_some found⟩
  · rintro ⟨x, hx, rfl⟩
    exact Option.ne_none_iff_exists'.1 (findGroup?_ne_none hx)

theorem findGroup?_eq_none {g : Group} {id : NodeId} (absent : ¬ g.Has .group id) :
    g.findGroup? id = none := by
  by_contra found
  exact absent (exists_findGroup?_iff.1 (Option.ne_none_iff_exists'.1 found))

theorem findCondition?_eq_some {g : Group} {c : Condition} {id : NodeId}
    (h : g.findCondition? id = some c) : c ∈ g.leaves ∧ c.id = id := by
  obtain ⟨x, hx, own⟩ := mem_of_search g c h
  exact ⟨mem_leaves_of_mem hx (List.mem_of_find?_eq_some own), by simpa using List.find?_some own⟩

theorem exists_findCondition?_iff {g : Group} {id : NodeId} :
    (∃ c, g.findCondition? id = some c) ↔ g.Has .condition id := by
  constructor
  · rintro ⟨c, found⟩
    exact ⟨c, findCondition?_eq_some found⟩
  · rintro ⟨c, hc, rfl⟩
    obtain ⟨x, hx, hc⟩ := List.mem_flatMap.1 hc
    apply Option.ne_none_iff_exists'.1
    refine search_ne_none (fun nothing => ?_) g hx
    simpa using List.find?_eq_none.1 nothing c hc

theorem position?_isSome (g : Group) (id : NodeId) :
    (g.position? id).isSome = true ↔ ∃ r ∈ g.order, r.id = id := by
  rw [position?, List.findIdx?_isSome]
  simp

/-- A look-up of one kind finds the nodes that the outline has. -/
theorem contains_iff {g : Group} {kind : Kind} {id : NodeId} :
    g.contains kind id = true ↔ g.Has kind id := by
  cases kind with
  | condition => rw [contains, Option.isSome_iff_exists, exists_findCondition?_iff]
  | group => rw [contains, Option.isSome_iff_exists, exists_findGroup?_iff]

/-! ## Changes -/

section
variable {g g' x x' : Group} {id : NodeId}

/-- A replaced group leaves the outline the conditions that it keeps itself. -/
theorem Replaced.has_condition (r : Replaced x x' g g')
    (kept : ∀ c ∈ x.leaves, ∃ c' ∈ x'.leaves, c'.id = c.id) (has : g.Has .condition id) :
    g'.Has .condition id := by
  obtain ⟨c, hc, rfl⟩ := has
  obtain ⟨rest, old, new⟩ := r.gathered conditions fun _ _ => rfl
  obtain within | around := List.mem_append.1 (old.mem_iff.1 hc)
  · obtain ⟨c', hc', same⟩ := kept c within
    exact ⟨c', new.mem_iff.2 (List.mem_append_left _ hc'), same⟩
  · exact ⟨c, new.mem_iff.2 (List.mem_append_right _ around), rfl⟩

theorem insert_has_condition {item : Item} {index : Option Nat} {target : NodeId}
    (h : g.modifyGroup target (insertChild item index) = some g') (has : g.Has .condition id) :
    g'.Has .condition id := by
  obtain ⟨c, hc, same⟩ := has
  exact ⟨c, (insert_leaves h).mem_iff.2 (List.mem_append_right _ hc), same⟩

theorem rejoin_has_condition {target : NodeId} {j : Junction}
    (h : g.modifyGroup target (fun y => { y with junction := j }) = some g')
    (has : g.Has .condition id) : g'.Has .condition id := by
  obtain ⟨y, -, r⟩ := modifyGroup_replaced h
  refine r.has_condition (fun c hc => ⟨c, ?_, rfl⟩) has
  rwa [leaves_eq] at hc ⊢

theorem modifyCondition_has_condition {target : NodeId} {f : Condition → Condition}
    (same : ∀ c, (f c).id = c.id) (h : g.modifyCondition target f = some g')
    (has : g.Has .condition id) : g'.Has .condition id := by
  obtain ⟨y, before, d, rest, split, -, r⟩ := modifyCondition_replaced h
  refine r.has_condition (fun c hc => ?_) has
  rw [leaves_eq, split] at hc
  obtain own | below := List.mem_append.1 hc
  · obtain own | rfl | own : c ∈ before ∨ c = d ∨ c ∈ rest := by simpa using own
    · exact ⟨c, mem_leaves_of_mem (mem_family_self _) (by simp [own]), rfl⟩
    · exact ⟨f c, mem_leaves_of_mem (mem_family_self _) (by simp), same c⟩
    · exact ⟨c, mem_leaves_of_mem (mem_family_self _) (by simp [own]), rfl⟩
  · refine ⟨c, ?_, rfl⟩
    rw [leaves_eq]
    exact List.mem_append_right _ below

end

theorem exists_modifyGroup_iff {g : Group} {id : NodeId} {f : Group → Group} :
    (∃ g', g.modifyGroup id f = some g') ↔ g.Has .group id := by
  constructor
  · rintro ⟨g', modified⟩
    obtain ⟨x, same, r⟩ := modifyGroup_replaced modified
    exact ⟨x, r.mem, same⟩
  · rintro ⟨x, hx, rfl⟩
    apply Option.ne_none_iff_exists'.1
    simpa [modifyGroup] using alter_ne_none (by simp) g hx

theorem exists_modifyCondition_iff {g : Group} {id : NodeId} {f : Condition → Condition} :
    (∃ g', g.modifyCondition id f = some g') ↔ g.Has .condition id := by
  constructor
  · rintro ⟨g', modified⟩
    obtain ⟨c, hc, same, -⟩ := mem_of_modifyCondition modified
    exact ⟨c, hc, same⟩
  · rintro ⟨c, hc, rfl⟩
    exact Option.ne_none_iff_exists'.1 (modifyCondition_ne_none hc f)

/-- What a group holds can be taken out of it. -/
theorem exists_detach_of_child {g x : Group} (hx : x ∈ g.family) {kind : Kind} {id : NodeId}
    (able : x.detachChild kind id ≠ none) : ∃ r, g.detach kind id = some r := by
  apply Option.ne_none_iff_exists'.1
  exact alter_ne_none (by simpa using able) g hx

/-- Every group but the root is a child of some group. -/
theorem exists_parent {g x : Group} (hx : x ∈ g.family) (below : x ≠ g) :
    ∃ y ∈ g.family, x ∈ y.groups := by
  induction g using induct with
  | step g ih =>
    obtain rfl | ⟨c, hc, hx⟩ := mem_family_iff.1 hx
    · exact absurd rfl below
    · by_cases direct : x = c
      · exact ⟨g, mem_family_self g, direct ▸ hc⟩
      · obtain ⟨y, hy, held⟩ := ih c hc hx direct
        exact ⟨y, mem_family_trans hy (mem_family_of_mem hc), held⟩

/-- The node that is taken out is one of the outline. -/
theorem has_of_detach {g g' : Group} {kind : Kind} {id origin : NodeId} {item : Item}
    (h : g.detach kind id = some (g', origin, item)) : g.Has kind id := by
  obtain ⟨x, x', detached, -, r⟩ := detach_replaced h
  obtain ⟨ref, ⟨c, before, rest, rfl, split, -⟩ | ⟨y, before, rest, rfl, split, -⟩⟩ :=
    detachChild_split detached
  · obtain ⟨rfl, rfl⟩ := ChildRef.mk.inj ref
    exact ⟨c, mem_leaves_of_mem r.mem (by simp [split]), rfl⟩
  · obtain ⟨rfl, rfl⟩ := ChildRef.mk.inj ref
    exact ⟨y, mem_family_trans (mem_family_of_mem (by simp [split])) r.mem, rfl⟩

theorem exists_detach {g : Group} {kind : Kind} {id : NodeId} (has : g.Has kind id)
    (below : kind = .group → id ≠ g.id) : ∃ r, g.detach kind id = some r := by
  cases kind with
  | condition =>
    obtain ⟨c, hc, rfl⟩ := has
    obtain ⟨x, hx, hc⟩ := List.mem_flatMap.1 hc
    refine exists_detach_of_child hx fun nothing => ?_
    simpa using List.find?_eq_none.1 (Option.map_eq_none_iff.1 nothing) c hc
  | group =>
    obtain ⟨x, hx, rfl⟩ := has
    obtain ⟨y, hy, held⟩ := exists_parent hx fun root => below rfl (congrArg Group.id root)
    refine exists_detach_of_child hy fun nothing => ?_
    simpa using List.find?_eq_none.1 (Option.map_eq_none_iff.1 nothing) x held

/-- Where ids differ, just the nodes below the root can be taken out. -/
theorem exists_detach_iff {g : Group} (ids : g.ids.Nodup) {kind : Kind} {id : NodeId} :
    (∃ r, g.detach kind id = some r) ↔ g.Has kind id ∧ (kind = .group → id ≠ g.id) := by
  constructor
  · rintro ⟨⟨g', origin, item⟩, h⟩
    refine ⟨has_of_detach h, ?_⟩
    rintro rfl
    obtain ⟨x, x', detached, -, r⟩ := detach_replaced h
    obtain ⟨ref, ⟨c, _, _, rfl, -⟩ | ⟨y, before, rest, rfl, split, -⟩⟩ := detachChild_split detached
    · cases congrArg ChildRef.kind ref
    · obtain rfl : y.id = id := congrArg ChildRef.id ref
      exact root_ne_child ids r.mem (by simp [split])
  · rintro ⟨has, below⟩
    exact exists_detach has below

end FieldFilter.Group
