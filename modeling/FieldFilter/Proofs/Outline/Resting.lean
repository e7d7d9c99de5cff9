import FieldFilter.Proofs.Outline.Restored

/-!
# Moves that change nothing

A node that is taken out and put in again can come back to its own place. It does so for every
change of the outline: among the children as they stand and, since what is put in arrives last, in
the row of its kind. `Rests` says that it is in such a place already, and it is what a move to it
leaves as it was (`rests_iff`).
-/

namespace FieldFilter.Group

/-- The children of a kind in the order in which they arrived. -/
def arrivals (g : Group) : Kind → List NodeId
  | .condition => g.conditions.map Condition.id
  | .group => g.groups.map Group.id

/-- The node stands where the destination has it, and arrived there last of its kind. -/
def Rests (g : Group) (kind : Kind) (id : NodeId) (d : Destination) : Prop :=
  ∃ x ∈ g.family, x.id = d.group ∧ (x.arrivals kind).getLast? = some id ∧
    Placed ⟨kind, id⟩ d.anchor d.side (x.order.filter (· ≠ ⟨kind, id⟩)) x.order

/-! ## Replaced groups -/

theorem Replaced.symm {x x' g g' : Group} (r : Replaced x x' g g') : Replaced x' x g' g := by
  induction r with
  | here => exact .here
  | inside id j cs before rest order _ ih => exact .inside id j cs before rest order ih

/-- Where ids differ, there is one place to replace a group at. -/
theorem Replaced.unique {x x' g a b : Group} (ids : g.ids.Nodup) (r : Replaced x x' g a)
    (r' : Replaced x x' g b) : a = b := by
  induction r generalizing b with
  | here =>
    cases r' with
    | here => rfl
    | @inside c _ _ _ _ _ _ _ r' =>
      obtain ⟨n, stands⟩ := exists_sits c _ r'.mem
      exact absurd rfl (stands.id_ne (by simp) ids)
  | @inside c c' id j cs before rest order r ih =>
    obtain ⟨n, stands⟩ := exists_sits c x r.mem
    generalize whole : (⟨id, j, cs, before ++ c :: rest, order⟩ : Group) = g at r'
    cases r' with
    | here =>
      subst whole
      exact absurd rfl (stands.id_ne (by simp) ids)
    | @inside d d' _ _ _ before' rest' _ r' =>
      obtain ⟨rfl, rfl, rfl, split, rfl⟩ := Group.mk.inj whole
      obtain ⟨m, stands'⟩ := exists_sits d x r'.mem
      obtain rfl := stands.same_child stands' rfl (by simp) (by simp [split]) ids
      obtain ⟨rfl, rfl⟩ := unique_middle (nodup_groups ids).of_map split
      rw [ih (nodup_of_mem (mem_family_of_mem (by simp)) ids) r']

/-! ## One group -/

section
variable {kind : Kind} {id origin : NodeId} {item : Item} {index : Option Nat}
  {d : Destination} {g g' rest : Group}

/-- What is put in arrives last. -/
theorem arrivals_insertChild (item : Item) (index : Option Nat) (g : Group) :
    ((insertChild item index g).arrivals item.kind).getLast? = some item.id := by
  cases item <;> simp [arrivals, insertChild, Item.kind, Item.id]

/-- Under different keys, nothing comes after the element with the last key. -/
theorem eq_nil_of_getLast? {β : Type} {key : β → NodeId} {before after : List β} {a : β}
    (unique : ((before ++ a :: after).map key).Nodup)
    (last : ((before ++ a :: after).map key).getLast? = some (key a)) : after = [] := by
  obtain rfl | ⟨front, b, rfl⟩ := after.eq_nil_or_concat
  · rfl
  · rw [List.concat_eq_append, ← List.cons_append, ← List.append_assoc, List.map_append,
      List.map_singleton, List.getLast?_concat] at last
    have same : key b = key a := Option.some.inj last
    rw [List.map_append, List.map_cons] at unique
    refine absurd (List.mem_append_right _ ?_) (List.nodup_middle.1 unique).notMem
    rw [← same]
    exact List.mem_map_of_mem (by simp)

/-- What arrived last in a group comes back to its own place, if the destination is there. -/
theorem insertChild_detachChild (hg : g.Intact) (detached : g.detachChild kind id = some (g', item))
    (last : (g.arrivals kind).getLast? = some id)
    (placed : Placed ⟨kind, id⟩ d.anchor d.side (g.order.filter (· ≠ ⟨kind, id⟩)) g.order) :
    insertChild item (d.index? g') g' = g := by
  have ids : (g'.order.map ChildRef.id).Nodup := by
    rw [order_detachChild detached]
    exact (List.filter_sublist.map ChildRef.id).nodup
      (nodup_order_ids (hg.ordered g (mem_family_self g)) hg.unique)
  obtain ⟨ref, split⟩ := detachChild_split detached
  rw [← ref, ← order_detachChild detached] at placed
  have order : (insertChild item (d.index? g') g').order = g.order := by
    rw [order_insertChild]
    exact (placed_insertIdx d g' item.ref).unique ids placed
  obtain ⟨own, j, cs, gs, entries⟩ := g
  obtain ⟨c, before, after, rfl, rfl, rfl⟩ | ⟨x, before, after, rfl, rfl, rfl⟩ := split
  · obtain ⟨rfl, rfl⟩ := ChildRef.mk.inj ref
    obtain rfl := eq_nil_of_getLast? (nodup_conditions hg.unique) last
    simpa [insertChild] using order
  · obtain ⟨rfl, rfl⟩ := ChildRef.mk.inj ref
    obtain rfl := eq_nil_of_getLast? (nodup_groups hg.unique) last
    simpa [insertChild] using order

/-! ## Moves -/

/-- A move changes nothing exactly if the node rests where it goes. -/
theorem rests_iff (hg : g.Intact) (detached : g.detach kind id = some (rest, origin, item))
    (inserted : rest.modifyGroup d.group
      (insertChild item ((rest.findGroup? d.group).bind d.index?)) = some g') :
    g' = g ↔ g.Rests kind id d := by
  have ref := detach_ref detached
  constructor
  · rintro rfl
    obtain ⟨x, hx, into, last⟩ : ∃ x ∈ g'.family, x.id = d.group ∧
        (x.arrivals item.kind).getLast? = some item.id := by
      obtain ⟨z, -, named, hx, -⟩ := insert_shells inserted
      exact ⟨_, hx, (insertChild_id _ _ z).trans named, arrivals_insertChild ..⟩
    have moved := moved_of_detach hg detached inserted
    obtain ⟨rfl, rfl⟩ := ChildRef.mk.inj ref
    exact ⟨x, hx, into, last, moved.target x hx x hx rfl into⟩
  · rintro ⟨x, hx, into, last, placed⟩
    obtain ⟨y, y', out, -, away⟩ := detach_replaced detached
    -- the node is taken out of the group that it goes to
    obtain rfl : y = x := by
      obtain ⟨front, back, -, stood⟩ := placed.split
      refine eq_of_held hg away.mem hx ?_ (stood ▸ List.mem_append_right _ List.mem_cons_self)
      rw [← ref]
      exact ref_mem_order out (hg.ordered y away.mem)
    obtain ⟨z, named, back⟩ := modifyGroup_replaced inserted
    have unique := (hg.detach detached).unique
    obtain rfl : z = y' := eq_of_id unique back.mem away.new_mem
      (named.trans (into.symm.trans (detachChild_id out).symm))
    rw [← named, findGroup?_of_mem unique back.mem, Option.bind_some,
      insertChild_detachChild (hg.of_mem hx) out last placed] at back
    exact back.unique unique away.symm

end

end FieldFilter.Group
