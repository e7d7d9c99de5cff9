import FieldFilter.Proofs.Outline.Integrity
import FieldFilter.Proofs.Outline.Resting

/-!
# Nodes that are put in and taken out

A child that is new to a group can be taken out again as it was put in, and leaves the group as it
was: the rows in which the other children arrived, and the order in which they stand
(`detachChild_insertChild`). All over an outline, a node none of whose ids are in use is found where
it was put in, and taking it out restores the outline (`detach_insert`).

The other way round, a child that is taken out and put in again at its place stands where it stood,
among children that stand as they did (`children_reinserted`), but it arrives last among those of its
kind. Both ways the group is intact all along (`children_lockstep`).
-/

namespace FieldFilter.Group

theorem split_of_le {α : Type} {l : List α} {i : Nat} (inside : i ≤ l.length) :
    ∃ front back, l = front ++ back ∧ front.length = i :=
  ⟨l.take i, l.drop i, (List.take_append_drop i l).symm, List.length_take_of_le inside⟩

/-- An entry that was put among others is removed again. -/
theorem filter_insertIdx {l : List ChildRef} {r : ChildRef} (absent : r ∉ l) {i : Nat}
    (inside : i ≤ l.length) : (l.insertIdx i r).filter (· ≠ r) = l := by
  obtain ⟨front, back, rfl, rfl⟩ := split_of_le inside
  rw [insertIdx_length, filter_ne_middle absent]

/-- The last element is the first with its key if no other has it. -/
theorem eraseP_concat {β : Type} {key : β → NodeId} {l : List β} {a : β}
    (absent : key a ∉ l.map key) : (l ++ [a]).eraseP (key · == key a) = l := by
  have none : ∀ b ∈ l, ¬ (key b == key a) = true := by
    intro b hb same
    exact absent (List.mem_map.2 ⟨b, hb, by simpa using same⟩)
  rw [List.eraseP_append_right _ none, List.eraseP_cons_of_pos (by simp), List.append_nil]

section
variable {item : Item} {target : NodeId} {g g' : Group}

/-- A child that is new to a group comes out as it went in, and leaves the group as it was. -/
theorem detachChild_insertChild (ordered : g.Ordered) (new : item.ref ∉ g.refs)
    (index : Option Nat) :
    (insertChild item index g).detachChild item.kind item.id = some (g, item) := by
  have order : (insertChild item index g).order.filter (· ≠ item.ref) = g.order := by
    rw [order_insertChild]
    exact filter_insertIdx (mt ordered.mem_iff.1 new) (Nat.min_le_right _ _)
  cases item with
  | condition c =>
    have absent : c.id ∉ g.conditions.map Condition.id := mt condition_mem_refs.2 new
    have found : (g.conditions ++ [c]).find? (·.id == c.id) = some c := find?_middle absent rfl
    obtain ⟨own, j, cs, gs, entries⟩ := g
    have whole := congrArg₂ (Group.mk own j · gs ·) (eraseP_concat absent) order
    exact (congrArg (Option.map _) found).trans
      (congrArg (fun x => some (x, Item.condition c)) whole)
  | group h =>
    have absent : h.id ∉ g.groups.map Group.id := mt group_mem_refs.2 new
    have found : (g.groups ++ [h]).find? (·.id == h.id) = some h := find?_middle absent rfl
    obtain ⟨own, j, cs, gs, entries⟩ := g
    have whole := congrArg₂ (Group.mk own j cs · ·) (eraseP_concat absent) order
    exact (congrArg (Option.map _) found).trans
      (congrArg (fun x => some (x, Item.group h)) whole)

/-- A node that is new to an outline comes out of the group that it was put into, and leaves the
outline as it was. -/
theorem detach_insert {index : Option Nat} (hg : g.Intact) (hi : ∀ x ∈ item.family, x.Ordered)
    (fresh : (item.ids ++ g.ids).Nodup)
    (h : g.modifyGroup target (insertChild item index) = some g') :
    g'.detach item.kind item.id = some (g, target, item) := by
  obtain ⟨x, rfl, r⟩ := modifyGroup_replaced h
  have intact := hg.insert hi fresh h
  have new : item.ref ∉ x.refs := fun old =>
    (List.nodup_append.1 fresh).2.2 item.id item.id_mem_ids item.id
      (mem_ids_of_mem r.mem (id_mem_ids_of_mem_refs old)) rfl
  have out := detachChild_insertChild (hg.ordered x r.mem) new index
  obtain ⟨⟨rest, origin, other⟩, detached⟩ :=
    exists_detach_of_child r.new_mem (Option.ne_none_iff_exists'.2 ⟨_, out⟩)
  obtain ⟨y, y', taken, rfl, away⟩ := detach_replaced detached
  -- the node has one entry, so the group that it is taken out of is the one that it was put into
  have entry : item.ref ∈ y.order := by
    have same : other.ref = item.ref := (detachChild_split taken).1
    exact same ▸ ref_mem_order taken (intact.ordered y away.mem)
  obtain rfl := eq_of_held intact away.mem r.new_mem entry
    (ref_mem_order out (intact.ordered _ r.new_mem))
  obtain ⟨rfl, rfl⟩ := Prod.mk.inj (Option.some.inj (out.symm.trans taken))
  rw [detached, away.unique intact.unique r.symm, insertChild_id]

end

/-! ## Putting in again -/

section
variable {item : Item} {kind : Kind} {id : NodeId} {i : Nat} {g g' : Group}

/-- The entry of a new child stands at the place that was asked for, or last if there is no such
place, and the others stand around it as they stood. -/
theorem order_around (item : Item) (index : Option Nat) (g : Group) :
    ∃ front back, g.order = front ++ back ∧
      front.length = index.elim g.order.length (min · g.order.length) ∧
        (insertChild item index g).order = front ++ item.ref :: back := by
  obtain ⟨front, back, split, length⟩ :=
    split_of_le (Nat.min_le_right (index.getD g.order.length) g.order.length)
  refine ⟨front, back, split, length.trans ?_, ?_⟩
  · cases index with
    | none => exact Nat.min_self _
    | some i => rfl
  · rw [order_insertChild, ← length, split, insertIdx_length]

/-- A child that is put in again at its place has its entry where it was. -/
theorem order_reinserted (ordered : g.Ordered) (ids : g.ids.Nodup)
    (taken : g.detachChild kind id = some (g', item)) (stood : g.order[i]? = some item.ref) :
    (insertChild item (some i) g').order = g.order := by
  obtain ⟨front, back, split, rfl⟩ := split_of_getElem? stood
  have absent : item.ref ∉ front ++ back :=
    (List.nodup_middle.1 (split ▸ nodup_order ordered ids)).notMem
  have left : g'.order = front ++ back := by
    rw [order_detachChild taken, split, filter_ne_middle absent]
  rw [order_insertChild, left, Option.getD_some, Nat.min_eq_left (by simp), insertIdx_length, split]

/-- A child that is put in again at its place stands there, and so do the others. -/
theorem children_reinserted (ordered : g.Ordered) (ids : g.ids.Nodup)
    (taken : g.detachChild kind id = some (g', item)) (stood : g.order[i]? = some item.ref) :
    (insertChild item (some i) g').children = g.children := by
  have new : item.ref ∉ g'.refs :=
    (List.nodup_cons.1 ((refs_detachChild taken).nodup_iff.1 (nodup_refs ids))).1
  rw [children, children, order_reinserted ordered ids taken stood]
  refine List.filterMap_congr fun r _ => ?_
  -- the child has moved to the end of its row, but entries are resolved by their ids
  by_cases own : r = item.ref
  · rw [own, child?_insertChild_self new, child?_of_detachChild taken]
  · rw [child?_insertChild own, child?_detachChild taken own]

theorem expression?_reinserted (ordered : g.Ordered) (ids : g.ids.Nodup)
    (taken : g.detachChild kind id = some (g', item)) (stood : g.order[i]? = some item.ref) :
    (insertChild item (some i) g').expression? = g.expression? := by
  rw [expression?_eq, expression?_eq g, children_reinserted ordered ids taken stood,
    insertChild_junction, detachChild_junction taken]

theorem intact_reinserted (hg : g.Intact) (taken : g.detachChild kind id = some (g', item)) :
    (insertChild item (some i) g').Intact := by
  refine intact_insertChild (intact_detachChild hg taken) (fun x hx => ?_) ?_ _
  · exact hg.ordered x (item_family_detachChild taken hx)
  · exact (ids_detachChild taken).nodup_iff.1 hg.unique

end

/-- An item without a flaw has no id twice, and its groups order their children. -/
theorem item_intact {item : Item}
    (unflawed : ∀ x, item = .group x → x.checkIntegrity = .ok ()) :
    item.ids.Nodup ∧ ∀ x ∈ item.family, x.Ordered := by
  cases item with
  | condition c => exact ⟨List.nodup_singleton c.id, nofun⟩
  | group x =>
    have intact := check_iff.1 (unflawed x rfl)
    exact ⟨intact.unique, intact.ordered⟩

/-- In a group without a flaw, an item without a flaw whose ids are new can be put in wherever its
entry is to stand: there is no flaw afterwards, and the item is taken out again as it was and leaves
the group that was there. The other way round, each child can be taken out and put in again at its
place: there is no flaw afterwards, the order is the one that was there, and so is what is
written. -/
theorem children_lockstep {g : Group} (unflawed : g.checkIntegrity = .ok ()) :
    (∀ (item : Item) (index : Option Nat),
      (∀ x, item = .group x → x.checkIntegrity = .ok ()) → (∀ id ∈ item.ids, id ∉ g.ids) →
        (insertChild item index g).checkIntegrity = .ok () ∧
        (∃ front back, g.order = front ++ back ∧
          front.length = index.elim g.order.length (min · g.order.length) ∧
            (insertChild item index g).order = front ++ item.ref :: back) ∧
        (insertChild item index g).detachChild item.kind item.id = some (g, item)) ∧
    ∀ (i : Nat) (r : ChildRef), g.order[i]? = some r →
      ∃ g' item, g.child? r = some item ∧ g.detachChild r.kind r.id = some (g', item) ∧
        (insertChild item (some i) g').checkIntegrity = .ok () ∧
        (insertChild item (some i) g').order = g.order ∧
        (insertChild item (some i) g').expression? = g.expression? := by
  have hg := check_iff.1 unflawed
  have ordered := hg.ordered g (mem_family_self g)
  constructor
  · intro item index whole apart
    obtain ⟨ids, below⟩ := item_intact whole
    have fresh : (item.ids ++ g.ids).Nodup :=
      List.nodup_append.2 ⟨ids, hg.unique, fun a ha b hb same => apart a ha (same ▸ hb)⟩
    have new : item.ref ∉ g.refs := fun old =>
      apart item.id item.id_mem_ids (id_mem_ids_of_mem_refs old)
    exact ⟨check_iff.2 (intact_insertChild hg below fresh index), order_around item index g,
      detachChild_insertChild ordered new index⟩
  · intro i r stood
    obtain ⟨item, found⟩ := exists_child? ordered hg.unique (List.mem_of_getElem? stood)
    obtain ⟨g', taken⟩ := exists_detachChild found
    have ref : item.ref = r := (detachChild_split taken).1
    have stood : g.order[i]? = some item.ref := ref ▸ stood
    exact ⟨g', item, found, taken, check_iff.2 (intact_reinserted hg taken),
      order_reinserted ordered hg.unique taken stood,
      expression?_reinserted ordered hg.unique taken stood⟩

/-- A group of two conditions, the later one in front, and a group with a condition between them. -/
def interleaved : Group where
  id := 1
  junction := .all
  conditions := [⟨2, "a", .has, none⟩, ⟨3, "b", .has, none⟩]
  groups := [⟨4, .any, [⟨5, "c", .has, none⟩], [], [⟨.condition, 5⟩]⟩]
  order := [⟨.condition, 3⟩, ⟨.group, 4⟩, ⟨.condition, 2⟩]

def newcomer : Group := ⟨6, .any, [⟨7, "a", .has, none⟩], [], [⟨.condition, 7⟩]⟩

/-- A group with a condition of its own is put in far behind the last child and taken out again. The
condition that arrived first comes back to its place, but is then the one that arrived last. -/
theorem children_lockstep_interleaved :
    interleaved.checkIntegrity = .ok () ∧
      (insertChild (.group newcomer) (some 9) interleaved).checkIntegrity = .ok () ∧
      (insertChild (.group newcomer) (some 9) interleaved).detachChild .group 6 =
        some (interleaved, .group newcomer) ∧
      ∃ g' item, interleaved.detachChild .condition 2 = some (g', item) ∧
        (insertChild item (some 2) g').checkIntegrity = .ok () ∧
        (insertChild item (some 2) g').order = interleaved.order ∧
        (insertChild item (some 2) g').expression? = interleaved.expression? ∧
        (insertChild item (some 2) g').arrivals .condition = [3, 2] := by
  have unflawed : interleaved.checkIntegrity = .ok () := check_iff.2 (by decide)
  obtain ⟨into, out⟩ := children_lockstep unflawed
  have whole : ∀ x, Item.group newcomer = .group x → x.checkIntegrity = .ok () := by
    rintro _ ⟨⟩
    exact check_iff.2 (by decide)
  obtain ⟨kept, -, back⟩ := into (.group newcomer) (some 9) whole (by decide)
  obtain ⟨g', item, -, taken, again, order, written⟩ := out 2 ⟨.condition, 2⟩ rfl
  refine ⟨unflawed, kept, back, g', item, taken, again, order, written, ?_⟩
  obtain ⟨rfl, rfl⟩ := Prod.mk.inj (Option.some.inj taken)
  rfl

end FieldFilter.Group
