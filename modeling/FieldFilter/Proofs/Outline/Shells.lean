import FieldFilter.Proofs.Outline.Lookup

/-!
# Groups without what is in them

The shell of a group is its id, its junction and its order. A node that is put in adds an entry to
the order of one group and brings its own shells along (`insert_shells`); a node that is taken out
takes its entry and its shells with it (`detach_shells`). All other shells stay. So an outline still
has its groups when a node was taken out, but for those that were in it (`has_of_detached`).
-/

namespace FieldFilter

/-- A group but for its children. -/
structure Shell where
  id : NodeId
  junction : Junction
  order : List ChildRef

namespace Group

def shell (g : Group) : Shell := ⟨g.id, g.junction, g.order⟩

/-- The shells of all groups of an outline. -/
def shells (g : Group) : List Shell := g.family.map shell

end Group

def Item.shells (i : Item) : List Shell := i.family.map Group.shell

@[simp] theorem Item.shells_group (g : Group) : (group g).shells = g.shells := rfl

namespace Group

theorem mem_shells {g : Group} {s : Shell} : s ∈ g.shells ↔ ∃ x ∈ g.family, x.shell = s :=
  List.mem_map

theorem shells_eq (g : Group) : g.shells = g.shell :: g.groups.flatMap shells := by
  rw [shells, family_eq, List.map_cons, List.map_flatMap]
  rfl

/-- Where one group is replaced, the shells around it stay. -/
theorem Replaced.shells {x x' g g' : Group} (r : Replaced x x' g g') :
    ∃ rest, g.shells.Perm (x.shells ++ rest) ∧ g'.shells.Perm (x'.shells ++ rest) := by
  obtain ⟨rest, old, new⟩ := r.gathered (fun y => [y.shell]) fun _ _ => rfl
  simp only [← List.map_eq_flatMap] at old new
  exact ⟨rest, old, new⟩

theorem Replaced.new_mem {x x' g g' : Group} (r : Replaced x x' g g') : x' ∈ g'.family := by
  induction r with
  | here => exact mem_family_self _
  | @inside c c' _ _ _ _ _ _ _ ih => exact mem_family_iff.2 (.inr ⟨c', by simp, ih⟩)

section
variable {kind : Kind} {id origin : NodeId} {item : Item} {index : Option Nat} {g g' : Group}

theorem insert_shells (h : g.modifyGroup id (insertChild item index) = some g') :
    ∃ x ∈ g.family, x.id = id ∧ insertChild item index x ∈ g'.family ∧
      ∃ rest, g.shells.Perm (x.shell :: rest) ∧
        g'.shells.Perm ((insertChild item index x).shell :: (item.shells ++ rest)) := by
  obtain ⟨x, named, r⟩ := modifyGroup_replaced h
  obtain ⟨rest, old, new⟩ := r.shells
  refine ⟨x, r.mem, named, r.new_mem, x.groups.flatMap shells ++ rest, ?_, ?_⟩
  · rwa [shells_eq x] at old
  · have below : ((insertChild item index x).groups.flatMap shells).Perm
        (item.shells ++ x.groups.flatMap shells) := by
      cases item with
      | condition c => exact .refl _
      | group y =>
        simpa [insertChild] using
          @List.perm_append_comm _ (x.groups.flatMap shells) y.shells
    rw [shells_eq (insertChild item index x)] at new
    refine new.trans (((below.append_right rest).cons _).trans ?_)
    rw [List.append_assoc]

theorem detach_shells (h : g.detach kind id = some (g', origin, item)) :
    ∃ x x', x ∈ g.family ∧ x' ∈ g'.family ∧ x.id = origin ∧
      x.detachChild kind id = some (x', item) ∧
      ∃ rest, g.shells.Perm (x.shell :: (item.shells ++ rest)) ∧
        g'.shells.Perm (x'.shell :: rest) := by
  obtain ⟨x, x', detached, named, r⟩ := detach_replaced h
  obtain ⟨rest, old, new⟩ := r.shells
  refine ⟨x, x', r.mem, r.new_mem, named, detached, x'.groups.flatMap shells ++ rest, ?_, ?_⟩
  · have below : (x.groups.flatMap shells).Perm (item.shells ++ x'.groups.flatMap shells) := by
      obtain ⟨-, ⟨c, before, rest, rfl, -, rfl⟩ | ⟨y, before, rest, rfl, split, rfl⟩⟩ :=
        detachChild_split detached
      · exact .refl _
      · rw [split]
        simpa using
          List.perm_append_comm_assoc (before.flatMap shells) y.shells (rest.flatMap shells)
    rw [shells_eq x] at old
    refine old.trans (((below.append_right rest).cons _).trans ?_)
    rw [List.append_assoc]
  · rwa [shells_eq x'] at new

/-- Groups outside the node that is taken out stay in the outline. -/
theorem has_of_detached (h : g.detach kind id = some (g', origin, item)) {target : NodeId}
    (has : g.Has .group target) (outside : ∀ y ∈ item.family, y.id ≠ target) :
    g'.Has .group target := by
  obtain ⟨y, hy, rfl⟩ := has
  obtain ⟨x, x', -, hx', -, detached, rest, old, new⟩ := detach_shells h
  have shell := old.mem_iff.1 (mem_shells.2 ⟨y, hy, rfl⟩)
  rw [List.mem_cons, List.mem_append] at shell
  obtain same | within | other := shell
  · have named : y.id = x.id := congrArg Shell.id same
    exact ⟨x', hx', (detachChild_id detached).trans named.symm⟩
  · obtain ⟨y', hy', same⟩ := List.mem_map.1 within
    exact absurd (congrArg Shell.id same) (outside y' hy')
  · obtain ⟨y', hy', same⟩ := mem_shells.1 (new.mem_iff.2 (List.mem_cons_of_mem _ other))
    exact ⟨y', hy', congrArg Shell.id same⟩

end

end Group

end FieldFilter
