import FieldFilter.Proofs.Outline.Moves

/-!
# Outlines that are the same as they stand

`Restored g g'` says that the outlines have the same nodes and that the children of all groups stand
in the same order. The rows in which children arrived can differ, but they do not show: neither in
the tree (`Restored.tree`) nor in what is written (`Restored.expression?`). A node that is moved and
then put back where it stood restores the outline (`Moved.restored`).
-/

namespace FieldFilter

section
variable {r : ChildRef} {front back order : List ChildRef}

/-- Among different elements, one stands at one place. -/
theorem unique_middle {α : Type} {a : α} {front back front' back' : List α}
    (unique : (front ++ a :: back).Nodup) (same : front ++ a :: back = front' ++ a :: back') :
    front = front' ∧ back = back' := by
  have absent := (List.nodup_middle.1 unique).notMem
  obtain ⟨first, last⟩ := not_or.1 (mt List.mem_append.2 absent)
  obtain ⟨before, -, after⟩ := (List.append_cons_inj_of_notMem first last).1 same
  exact ⟨before, after⟩

/-- An entry together with a sibling on whose given side it stands. -/
def Side.pair (side : Side) (r a : ChildRef) : List ChildRef :=
  match side with
  | .before => [r, a]
  | .after => [a, r]

/-- Beside a sibling that is there, the entry comes to stand right there. -/
theorem Placed.beside {a : ChildRef} {side : Side}
    (unique : ((front ++ a :: back).map ChildRef.id).Nodup)
    (h : Placed r (some a.id) side (front ++ a :: back) order) :
    order = front ++ (side.pair r a ++ back) := by
  generalize anchored : some a.id = anchor, stood : front ++ a :: back = old at h
  have own : a ∈ old := by simp [← stood]
  cases h with
  | first | last => cases anchored
  | @before b front' back' | @after b front' back' =>
    rw [stood] at unique
    obtain rfl := List.inj_on_of_nodup_map unique own (by simp) (Option.some.inj anchored)
    obtain ⟨rfl, rfl⟩ := unique_middle (stood ▸ unique.of_map) stood
    rfl
  | unanchored absent => exact absurd (Option.some.inj anchored) (absent a own)

/-- Where ids differ, an entry is put in one way. -/
theorem Placed.unique {anchor : Option NodeId} {side : Side} {old order' : List ChildRef}
    (unique : (old.map ChildRef.id).Nodup) (h : Placed r anchor side old order)
    (h' : Placed r anchor side old order') : order = order' := by
  cases h with
  | first => cases h' with | first => rfl
  | last => cases h' with | last => rfl
  | before | after => exact (h'.beside unique).symm
  | unanchored absent =>
    cases h' with
    | before | after => exact absurd rfl (absent _ (by simp))
    | unanchored => rfl

/-- An entry that is put before the one that stood behind it, or last if none did, stands where it
stood. -/
theorem Placed.restores (unique : ((front ++ r :: back).map ChildRef.id).Nodup)
    (h : Placed r (back.head?.map ChildRef.id)
      (if (back.head?.map ChildRef.id).isSome then .before else .after) (front ++ back) order) :
    order = front ++ r :: back := by
  cases back with
  | nil =>
    rw [List.append_nil] at h
    cases h with
    | last => rfl
  | cons a back =>
    refine Placed.beside ?_ h
    refine (List.Sublist.map ChildRef.id ?_).nodup unique
    exact (List.sublist_cons_self r (a :: back)).append_left front

end

namespace Group

/-- The outlines have the same nodes, and the children of all groups stand in the same order. -/
structure Restored (g g' : Group) : Prop where
  root : g'.id = g.id
  orders : ∀ x ∈ g.family, ∀ x' ∈ g'.family, x'.id = x.id → x'.order = x.order
  conditions : g'.leaves.Perm g.leaves
  /-- Ids and junctions of the groups. -/
  groups : (g'.shells.map Shell.head).Perm (g.shells.map Shell.head)

section
variable {g g' : Group}

theorem nodup_stood (hg : g.Intact) {x : Group} (hx : x ∈ g.family) {r : ChildRef}
    {front back : List ChildRef} (stood : x.order = front ++ r :: back) :
    ((front ++ r :: back).map ChildRef.id).Nodup :=
  stood ▸ nodup_order_ids (hg.ordered x hx) (nodup_of_mem hx hg.unique)

/-- What stands behind a child has another id. -/
theorem behind_ne (hg : g.Intact) {x : Group} (hx : x ∈ g.family) {r : ChildRef}
    {front back : List ChildRef} (stood : x.order = front ++ r :: back) :
    back.head?.map ChildRef.id ≠ some r.id := by
  intro itself
  obtain ⟨b, first, same⟩ := Option.map_eq_some_iff.1 itself
  have unique := nodup_stood hg hx stood
  rw [List.map_append, List.map_cons] at unique
  refine (List.nodup_middle.1 unique).notMem (List.mem_append_right _ ?_)
  rw [← same]
  exact List.mem_map_of_mem (List.mem_of_head? first)

/-! ## Trees -/

theorem Restored.junction (h : Restored g g') (hg : g.Intact) {x x' : Group} (hx : x ∈ g.family)
    (hx' : x' ∈ g'.family) (same : x'.id = x.id) : x'.junction = x.junction := by
  have head : x'.shell.head ∈ g.shells.map Shell.head :=
    h.groups.mem_iff.1 (List.mem_map_of_mem (List.mem_map_of_mem hx'))
  obtain ⟨_, shell, head⟩ := List.mem_map.1 head
  obtain ⟨y, hy, rfl⟩ := mem_shells.1 shell
  obtain ⟨named, junction⟩ := Prod.mk.inj head
  obtain rfl := eq_of_id hg.unique hy hx (named.trans same)
  exact junction.symm

/-- Groups with one id have one tree: their entries stand for the same conditions, and for groups
with one id again. -/
theorem Restored.tree_of_id (h : Restored g g') (hg : g.Intact) (hg' : g'.Intact) (x : Group) :
    x ∈ g.family → ∀ x' ∈ g'.family, x'.id = x.id → x'.tree = x.tree := by
  induction x using induct with
  | step x ih =>
    intro hx x' hx' same
    have order := h.orders x hx x' hx' same
    rw [tree_eq, tree_eq, same, h.junction hg hx hx' same, children, children, order,
      List.map_filterMap, List.map_filterMap]
    congr 1
    refine List.filterMap_congr fun r hr => ?_
    have stands := child?_of_mem_order (hg.ordered x hx) (nodup_of_mem hx hg.unique) hr
    have stands' := child?_of_mem_order (hg'.ordered x' hx') (nodup_of_mem hx' hg'.unique)
      (order ▸ hr)
    obtain ⟨c, hc, rfl, found⟩ | ⟨y, hy, rfl, found⟩ := stands
    · obtain ⟨c', hc', ref, found'⟩ | ⟨_, _, ref, -⟩ := stands'
      · obtain rfl := leaf_eq_of_id hg.unique (mem_leaves_of_mem hx hc)
          (h.conditions.mem_iff.1 (mem_leaves_of_mem hx' hc')) (congrArg ChildRef.id ref)
        rw [found, found']
      · cases ref
    · obtain ⟨_, _, ref, -⟩ | ⟨y', hy', ref, found'⟩ := stands'
      · cases ref
      · have below := ih y hy (mem_family_trans (mem_family_of_mem hy) hx) y'
          (mem_family_trans (mem_family_of_mem hy') hx') (congrArg ChildRef.id ref).symm
        rw [found, found']
        exact congrArg some below

theorem Restored.tree (h : Restored g g') (hg : g.Intact) (hg' : g'.Intact) : g'.tree = g.tree :=
  h.tree_of_id hg hg' g (mem_family_self g) g' (mem_family_self g') h.root

theorem Restored.expression? (h : Restored g g') (hg : g.Intact) (hg' : g'.Intact) :
    g'.expression? = g.expression? := by
  rw [← expression?_tree, h.tree hg hg', expression?_tree]

end

/-! ## Moves back -/

/-- A node that was moved and goes back before what it stood before, or to the end if nothing stood
behind it, stands where it stood, and everything else stands as it stood. -/
theorem Moved.restored {g g' g'' x : Group} {kind : Kind} {id : NodeId} {d : Destination}
    {front back : List ChildRef} (hg : g.Intact) (hx : x ∈ g.family)
    (stood : x.order = front ++ ⟨kind, id⟩ :: back)
    (away : Moved g g' kind id d)
    (home : Moved g' g'' kind id ⟨x.id, back.head?.map ChildRef.id,
      if (back.head?.map ChildRef.id).isSome then .before else .after⟩) : Restored g g'' where
  root := home.root.trans away.root
  orders := by
    intro y hy y'' hy'' same
    obtain ⟨y', hy', named⟩ : g'.Has .group y.id := away.has.2 ⟨y, hy, rfl⟩
    have others := away.others hy hy' named
    by_cases own : y.id = x.id
    · obtain rfl := eq_of_id hg.unique hy hx own
      have unique := nodup_stood hg hy stood
      have put := home.target y' hy' y'' hy'' (same.trans named.symm) named
      rw [others, stood, filter_ne_middle (List.nodup_middle.1 unique.of_map).notMem] at put
      exact (put.restores unique).trans stood.symm
    · have held : ⟨kind, id⟩ ∈ x.order := by simp [stood]
      have absent : ⟨kind, id⟩ ∉ y.order := fun held' =>
        own (congrArg Group.id (eq_of_held hg hy hx held' held))
      rw [home.elsewhere hy' hy'' (same.trans named.symm) (named ▸ own), others,
        filter_ne_of_not_mem absent]
  conditions := home.conditions.trans away.conditions
  groups := home.groups.trans away.groups

end Group

end FieldFilter
