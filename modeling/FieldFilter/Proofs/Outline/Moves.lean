import FieldFilter.Outline.Destination
import FieldFilter.Proofs.Outline.Shells
import FieldFilter.Proofs.Outline.Tree

/-!
# Moved nodes

`Moved g g' kind id d` says what moving a node comes to: it stands in the target as it stood before,
its entry is gone from the order of its old group and put into that of the target where the
destination has it (`Placed`), and everything else stays. A node that is taken out and put in again
is moved (`moved_of_detach`).

The orders are followed by way of the ids of the groups. Taking a node out removes its entry from
all orders (`detach_order`); putting it in changes the order of the target alone (`insert_order`).
An entry stands in one order only (`eq_of_held`), and the groups outside the node stay as deep as
they were (`depth_of_move`).
-/

namespace FieldFilter

/-- The entry is put beside an anchor, or without one at the start or the end. An anchor that is not
there means the end. -/
inductive Placed (r : ChildRef) : Option NodeId → Side → List ChildRef → List ChildRef → Prop
  | first {order : List ChildRef} : Placed r none .before order (r :: order)
  | last {order : List ChildRef} : Placed r none .after order (order ++ [r])
  | before {a : ChildRef} {front back : List ChildRef} :
      Placed r (some a.id) .before (front ++ a :: back) (front ++ r :: a :: back)
  | after {a : ChildRef} {front back : List ChildRef} :
      Placed r (some a.id) .after (front ++ a :: back) (front ++ a :: r :: back)
  | unanchored {anchor : NodeId} {side : Side} {order : List ChildRef} :
      (∀ a ∈ order, a.id ≠ anchor) → Placed r (some anchor) side order (order ++ [r])

theorem insertIdx_length {α : Type} (a : α) (front back : List α) :
    (front ++ back).insertIdx front.length a = front ++ a :: back := by
  induction front with
  | nil => exact List.insertIdx_zero
  | cons b front ih => simp [ih]

/-- What stands at a place has so many elements in front of it. -/
theorem split_of_getElem? {α : Type} {l : List α} {i : Nat} {a : α} (h : l[i]? = some a) :
    ∃ front back, l = front ++ a :: back ∧ front.length = i := by
  obtain ⟨inside, rfl⟩ := List.getElem?_eq_some_iff.1 h
  refine ⟨l.take i, l.drop (i + 1), ?_, List.length_take_of_le (Nat.le_of_lt inside)⟩
  rw [List.getElem_cons_drop inside, List.take_append_drop]

theorem split_of_findIdx? {α : Type} {p : α → Bool} {l : List α} {i : Nat}
    (h : l.findIdx? p = some i) :
    ∃ front a back, l = front ++ a :: back ∧ front.length = i ∧ p a = true := by
  obtain ⟨inside, own, -⟩ := List.findIdx?_eq_some_iff_getElem.1 h
  obtain ⟨front, back, split, length⟩ := split_of_getElem? (List.getElem?_eq_getElem inside)
  exact ⟨front, l[i], back, split, length, own⟩

/-- The destination puts an entry where it says. -/
theorem placed_insertIdx (d : Destination) (g : Group) (r : ChildRef) :
    Placed r d.anchor d.side g.order
      (g.order.insertIdx (min ((d.index? g).getD g.order.length) g.order.length) r) := by
  obtain ⟨group, anchor, side⟩ := d
  cases anchor with
  | none =>
    cases side with
    | before => simpa [Destination.index?] using Placed.first
    | after => simpa [Destination.index?] using Placed.last
  | some anchor =>
    simp only [Destination.index?, Group.position?]
    cases found : g.order.findIdx? (·.id == anchor) with
    | none =>
      rw [List.findIdx?_eq_none_iff] at found
      simpa using Placed.unanchored fun a ha => by simpa using found a ha
    | some i =>
      obtain ⟨front, a, back, split, rfl, own⟩ := split_of_findIdx? found
      obtain rfl : a.id = anchor := by simpa using own
      rw [split]
      cases side with
      | before =>
        rw [Option.map_some, Option.getD_some, Nat.min_eq_left (by simp), insertIdx_length]
        exact .before
      | after =>
        have behind := insertIdx_length r (front ++ [a]) back
        simp only [List.append_assoc, List.singleton_append, List.length_append,
          List.length_singleton] at behind
        rw [Option.map_some, Option.getD_some, Nat.min_eq_left (by simp), behind]
        exact .after

/-- Wherever the entry is put, the others stand around it as they stood. -/
theorem Placed.split {r : ChildRef} {anchor : Option NodeId} {side : Side}
    {order order' : List ChildRef} (h : Placed r anchor side order order') :
    ∃ front back, order = front ++ back ∧ order' = front ++ r :: back := by
  cases h with
  | first => exact ⟨[], order, rfl, rfl⟩
  | last | unanchored => exact ⟨order, [], (List.append_nil order).symm, rfl⟩
  | before => exact ⟨_, _, rfl, rfl⟩
  | @after a front back => exact ⟨front ++ [a], back, by simp, by simp⟩

theorem Placed.others {r : ChildRef} {anchor : Option NodeId} {side : Side}
    {order order' : List ChildRef} (h : Placed r anchor side order order') (absent : r ∉ order) :
    order'.filter (· ≠ r) = order := by
  obtain ⟨front, back, rfl, rfl⟩ := h.split
  exact Group.filter_ne_middle absent

/-- The id and the junction of a group. -/
def Shell.head (s : Shell) : NodeId × Junction := (s.id, s.junction)

namespace Group

/-- The outline `g'` is `g` with a node moved. -/
structure Moved (g g' : Group) (kind : Kind) (id : NodeId) (d : Destination) : Prop where
  root : g'.id = g.id
  /-- The node is a child of the target now, and with all below it what it was before. -/
  item : ∃ i : Item, i.ref = ⟨kind, id⟩ ∧ (∃ x ∈ g.family, i ∈ x.children) ∧
    ∃ x ∈ g'.family, x.id = d.group ∧ i ∈ x.children
  /-- A group that neither held the node nor takes it in keeps its order. -/
  bystanders : ∀ x ∈ g.family, ∀ x' ∈ g'.family, x'.id = x.id → x.id ≠ d.group →
    ⟨kind, id⟩ ∉ x.order → x'.order = x.order
  /-- The group that held the node and does not take it in has lost it. -/
  source : ∀ x ∈ g.family, ∀ x' ∈ g'.family, x'.id = x.id → x.id ≠ d.group →
    ⟨kind, id⟩ ∈ x.order → x'.order = x.order.filter (· ≠ ⟨kind, id⟩)
  /-- The group that takes the node in has it at its place among the others. -/
  target : ∀ x ∈ g.family, ∀ x' ∈ g'.family, x'.id = x.id → x.id = d.group →
    Placed ⟨kind, id⟩ d.anchor d.side (x.order.filter (· ≠ ⟨kind, id⟩)) x'.order
  conditions : g'.leaves.Perm g.leaves
  groups : (g'.shells.map Shell.head).Perm (g.shells.map Shell.head)
  size : g'.size = g.size

section
variable {kind : Kind} {id target origin : NodeId} {item : Item} {index : Option Nat}
  {g g' : Group}

/-- A node that is taken out leaves no entry. -/
theorem ref_not_mem_order (hg : g.Intact) (h : g.detach kind id = some (g', origin, item))
    {x : Group} (hx : x ∈ g'.family) : item.ref ∉ x.order := by
  intro held
  have entry := ((hg.detach h).ordered x hx).mem_iff.1 held
  have left : item.id ∈ g'.ids := mem_ids_of_mem hx (id_mem_ids_of_mem_refs entry)
  exact ids_apart_of_detach hg.unique h item.id_mem_ids left

/-- What the entries of a group stand for is held by it. -/
theorem mem_groups_of_held (hg : g.Intact) {x z : Group} (hx : x ∈ g.family) (hz : z ∈ g.family)
    (held : ⟨.group, z.id⟩ ∈ x.order) : z ∈ x.groups := by
  have entry := (hg.ordered x hx).mem_iff.1 held
  obtain ⟨c, hc, named⟩ : ∃ c ∈ x.groups, c.id = z.id := by simpa [refs] using entry
  obtain rfl := eq_of_id hg.unique (mem_family_trans (mem_family_of_mem hc) hx) hz named
  exact hc

/-- The group that holds another one is not below it. -/
theorem not_has_of_held (hg : g.Intact) {x z : Group} (hx : x ∈ g.family) (hz : z ∈ g.family)
    (held : ⟨.group, z.id⟩ ∈ x.order) : ¬ z.Has .group x.id := by
  rintro ⟨y, hy, same⟩
  obtain rfl := eq_of_id hg.unique (mem_family_trans hy hz) hx same
  exact root_ne_child (nodup_of_mem hz hg.unique) hy (mem_groups_of_held hg hx hz held) rfl

/-- No group of the node has an entry for it. -/
theorem ref_not_mem_within (hg : g.Intact) (h : g.detach kind id = some (g', origin, item))
    {x : Group} (hx : x ∈ item.family) : item.ref ∉ x.order := by
  cases item with
  | condition c => cases hx
  | group z =>
    obtain ⟨hz, -⟩ := mem_of_detach h
    exact fun held => not_has_of_held hg (mem_family_trans hx hz) hz held ⟨x, hx, rfl⟩

/-- The group that holds a node is none of the node. -/
theorem outside_of_held (hg : g.Intact) (h : g.detach kind id = some (g', origin, item)) {x : Group}
    (hx : x ∈ g.family) (held : ⟨kind, id⟩ ∈ x.order) : ∀ y ∈ item.family, y.id ≠ x.id := by
  intro y hy named
  obtain rfl := eq_of_id hg.unique (detach_family h hy) hx named
  exact ref_not_mem_within hg h hy (detach_ref h ▸ held)

/-- Only the group that the node is taken out of has an entry for it. -/
theorem id_of_held (hg : g.Intact) (h : g.detach kind id = some (g', origin, item)) {x : Group}
    (hx : x ∈ g.family) (held : item.ref ∈ x.order) : x.id = origin := by
  obtain ⟨z, z', -, -, named, -, rest, old, new⟩ := detach_shells h
  have shell := old.mem_iff.1 (mem_shells.2 ⟨x, hx, rfl⟩)
  rw [List.mem_cons, List.mem_append] at shell
  obtain own | within | other := shell
  · exact (congrArg Shell.id own).trans named
  · obtain ⟨y, hy, same⟩ := List.mem_map.1 within
    have order : y.order = x.order := congrArg Shell.order same
    exact absurd (order ▸ held) (ref_not_mem_within hg h hy)
  · obtain ⟨y, hy, same⟩ := mem_shells.1 (new.mem_iff.2 (List.mem_cons_of_mem _ other))
    have order : y.order = x.order := congrArg Shell.order same
    exact absurd (order ▸ held) (ref_not_mem_order hg h hy)

/-- What has an entry can be taken out. -/
theorem exists_detach_of_held (hg : g.Intact) {r : ChildRef} {x : Group} (hx : x ∈ g.family)
    (held : r ∈ x.order) : ∃ taken, g.detach r.kind r.id = some taken := by
  obtain ⟨item, found⟩ := exists_child? (hg.ordered x hx) (nodup_of_mem hx hg.unique) held
  obtain ⟨x', taken⟩ := exists_detachChild found
  exact exists_detach_of_child hx (by simp [taken])

/-- An entry stands in the order of one group only. -/
theorem eq_of_held (hg : g.Intact) {r : ChildRef} {x y : Group} (hx : x ∈ g.family)
    (hy : y ∈ g.family) (held : r ∈ x.order) (held' : r ∈ y.order) : x = y := by
  obtain ⟨⟨rest, origin, item⟩, detached⟩ := exists_detach_of_held hg hx held
  have ref := detach_ref detached
  have named := id_of_held hg detached hx (ref ▸ held)
  exact eq_of_id hg.unique hx hy (named.trans (id_of_held hg detached hy (ref ▸ held')).symm)

/-- The orders of the groups that are left have lost the entry of the node, if they had it. -/
theorem detach_order (hg : g.Intact) (h : g.detach kind id = some (g', origin, item)) {x y : Group}
    (hx : x ∈ g.family) (hy : y ∈ g'.family) (same : y.id = x.id) :
    y.order = x.order.filter (· ≠ item.ref) := by
  obtain ⟨z, z', hz, -, -, detached, rest, old, new⟩ := detach_shells h
  obtain own | other := List.mem_cons.1 (new.mem_iff.1 (mem_shells.2 ⟨y, hy, rfl⟩))
  · have named : z.id = x.id :=
      (detachChild_id detached).symm.trans ((congrArg Shell.id own).symm.trans same)
    obtain rfl := eq_of_id hg.unique hz hx named
    exact (congrArg Shell.order own).trans (order_detachChild detached)
  · obtain ⟨x', hx', unchanged⟩ := mem_shells.1
      (old.mem_iff.2 (List.mem_cons_of_mem _ (List.mem_append_right _ other)))
    obtain rfl := eq_of_id hg.unique hx' hx ((congrArg Shell.id unchanged).trans same)
    have order : x'.order = y.order := congrArg Shell.order unchanged
    have absent := ref_not_mem_order hg h hy
    rw [← order] at absent ⊢
    exact (filter_ne_of_not_mem absent).symm

/-- The group that takes the node in is changed by this alone. -/
theorem insert_target (unique : g.ids.Nodup) (unique' : g'.ids.Nodup)
    (h : g.modifyGroup target (insertChild item index) = some g') {x y : Group}
    (hx : x ∈ g.family) (hy : y ∈ g'.family) (same : y.id = x.id) (named : x.id = target) :
    y = insertChild item index x := by
  obtain ⟨z, hz, named', hz', -⟩ := insert_shells h
  obtain rfl := eq_of_id unique hz hx (named'.trans named.symm)
  exact eq_of_id unique' hy hz' (same.trans (insertChild_id item index z).symm)

/-- The other groups keep their order. -/
theorem insert_order (unique' : g'.ids.Nodup)
    (h : g.modifyGroup target (insertChild item index) = some g') {x y : Group}
    (hx : x ∈ g.family) (hy : y ∈ g'.family) (same : y.id = x.id) (other : x.id ≠ target) :
    y.order = x.order := by
  obtain ⟨z, -, named, -, rest, old, new⟩ := insert_shells h
  obtain own | left := List.mem_cons.1 (old.mem_iff.1 (mem_shells.2 ⟨x, hx, rfl⟩))
  · exact absurd ((congrArg Shell.id own).trans named) other
  · obtain ⟨y', hy', unchanged⟩ := mem_shells.1
      (new.mem_iff.2 (List.mem_cons_of_mem _ (List.mem_append_right _ left)))
    obtain rfl := eq_of_id unique' hy' hy ((congrArg Shell.id unchanged).trans same.symm)
    exact congrArg Shell.order unchanged

theorem detach_heads (h : g.detach kind id = some (g', origin, item)) :
    (g.shells.map Shell.head).Perm (item.shells.map Shell.head ++ g'.shells.map Shell.head) := by
  obtain ⟨x, x', -, -, -, detached, rest, old, new⟩ := detach_shells h
  have head : x'.shell.head = x.shell.head :=
    Prod.ext (detachChild_id detached) (detachChild_junction detached)
  have old := old.map Shell.head
  have new := new.map Shell.head
  rw [List.map_cons, List.map_append] at old
  rw [List.map_cons, head] at new
  exact old.trans (List.perm_middle.symm.trans (new.symm.append_left _))

theorem insert_heads (h : g.modifyGroup target (insertChild item index) = some g') :
    (g'.shells.map Shell.head).Perm (item.shells.map Shell.head ++ g.shells.map Shell.head) := by
  obtain ⟨x, -, -, -, rest, old, new⟩ := insert_shells h
  have head : (insertChild item index x).shell.head = x.shell.head :=
    Prod.ext (insertChild_id item index x) (insertChild_junction item index x)
  have old := old.map Shell.head
  have new := new.map Shell.head
  rw [List.map_cons] at old
  rw [List.map_cons, List.map_append, head] at new
  exact new.trans (List.perm_middle.symm.trans (old.symm.append_left _))

end

/-! ## Moves -/

section
variable {kind : Kind} {id origin : NodeId} {d : Destination} {item : Item} {g rest g' : Group}

/-- Groups below the node move with it, unchanged. -/
theorem order_within {target : NodeId} {index : Option Nat} (hg : g.Intact)
    (detached : g.detach kind id = some (rest, origin, item))
    (inserted : rest.modifyGroup target (insertChild item index) = some g') {x y : Group}
    (hx : x ∈ item.family) (hy : y ∈ g'.family) (same : y.id = x.id) : y.order = x.order := by
  have unique := (hg.move detached inserted).unique
  obtain ⟨_, -, -, -, _, -, new⟩ := insert_shells inserted
  obtain ⟨y', hy', unchanged⟩ := mem_shells.1 (new.mem_iff.2
    (List.mem_cons_of_mem _ (List.mem_append_left _ (List.mem_map_of_mem hx))))
  obtain rfl := eq_of_id unique hy' hy ((congrArg Shell.id unchanged).trans same.symm)
  exact congrArg Shell.order unchanged

/-- Groups other than the target lose the entry, if they had it. -/
theorem order_of_move {target : NodeId} {index : Option Nat} (hg : g.Intact)
    (detached : g.detach kind id = some (rest, origin, item))
    (inserted : rest.modifyGroup target (insertChild item index) = some g') {x y : Group}
    (hx : x ∈ g.family) (hy : y ∈ g'.family) (same : y.id = x.id) (other : x.id ≠ target) :
    y.order = x.order.filter (· ≠ item.ref) := by
  by_cases within : ∃ z ∈ item.family, z.id = x.id
  · obtain ⟨z, hz, named⟩ := within
    obtain rfl := eq_of_id hg.unique (detach_family detached hz) hx named
    rw [order_within hg detached inserted hz hy same,
      filter_ne_of_not_mem (ref_not_mem_within hg detached hz)]
  · have outside : ∀ z ∈ item.family, z.id ≠ x.id := fun z hz named => within ⟨z, hz, named⟩
    obtain ⟨z, hz, named⟩ := has_of_detached detached ⟨x, hx, rfl⟩ outside
    have unique := (hg.move detached inserted).unique
    rw [insert_order unique inserted hz hy (same.trans named.symm) (named ▸ other),
      detach_order hg detached hx hz named]

theorem moved_of_detach (hg : g.Intact) (detached : g.detach kind id = some (rest, origin, item))
    (inserted : rest.modifyGroup d.group
      (insertChild item ((rest.findGroup? d.group).bind d.index?)) = some g') :
    Moved g g' kind id d := by
  have ref := detach_ref detached
  have left := hg.detach detached
  have intact := hg.move detached inserted
  obtain ⟨z, hz, named, hz', -⟩ := insert_shells inserted
  have found : rest.findGroup? d.group = some z := named ▸ findGroup?_of_mem left.unique hz
  have conditions := (insert_leaves inserted).trans (detach_leaves detached).symm
  have groups := (insert_heads inserted).trans (detach_heads detached).symm
  constructor
  · exact (insert_root inserted).trans (detach_root detached)
  · have put : item.ref ∈ (insertChild item ((rest.findGroup? d.group).bind d.index?) z).order := by
      rw [order_insertChild, List.mem_insertIdx (Nat.min_le_right _ _)]
      exact .inl rfl
    obtain ⟨x, x', held, -, r⟩ := detach_replaced detached
    have entry := ref_mem_order held (hg.ordered x r.mem)
    have new : item.ref ∉ z.refs := fun old =>
      ref_not_mem_order hg detached hz ((left.ordered z hz).mem_iff.2 old)
    refine ⟨item, ref, ⟨x, r.mem, ?_⟩, _, hz', (insertChild_id _ _ z).trans named, ?_⟩
    · exact List.mem_filterMap.2 ⟨item.ref, entry, child?_of_detachChild held⟩
    · exact List.mem_filterMap.2 ⟨item.ref, put, child?_insertChild_self new _⟩
  · intro x hx x' hx' same other absent
    rw [order_of_move hg detached inserted hx hx' same other]
    exact filter_ne_of_not_mem (ref ▸ absent)
  · intro x hx x' hx' same other _
    rw [← ref]
    exact order_of_move hg detached inserted hx hx' same other
  · intro x hx x' hx' same into
    have stood := detach_order hg detached hx hz (named.trans into.symm)
    have stands := insert_target left.unique intact.unique inserted hz hx'
      (same.trans (into.trans named.symm)) named
    rw [stands, order_insertChild, ← ref, ← stood, found]
    exact placed_insertIdx d z item.ref
  · exact conditions
  · exact groups
  · have count := groups.length_eq
    simp only [shells, List.length_map] at count
    rw [size_eq, size_eq, conditions.length_eq, count]

/-- Groups outside the node stay as deep as they were. -/
theorem depth_of_move {target : NodeId} {index : Option Nat} (hg : g.Intact)
    (detached : g.detach kind id = some (rest, origin, item))
    (inserted : rest.modifyGroup target (insertChild item index) = some g') {x y : Group}
    (hx : x ∈ g.family) (hy : y ∈ g'.family) (same : y.id = x.id)
    (outside : ∀ z ∈ item.family, z.id ≠ x.id) : g'.depth? x.id = g.depth? x.id := by
  obtain ⟨n, stood⟩ := exists_sits g x hx
  obtain ⟨m, stands⟩ := exists_sits g' y hy
  obtain within | ⟨z, left, named⟩ := sits_of_insert inserted stands
  · exact absurd same (outside y within)
  · obtain ⟨w, before, named'⟩ := sits_of_detach detached left
    have kept : x.id = w.id := (named'.trans (named.trans same)).symm
    obtain ⟨rfl, -⟩ := stood.unique hg.unique before kept
    rw [stood.depth? hg.unique, ← same, stands.depth? (hg.move detached inserted).unique]

namespace Moved

theorem elsewhere (h : Moved g g' kind id d) {x x' : Group} (hx : x ∈ g.family)
    (hx' : x' ∈ g'.family) (same : x'.id = x.id) (other : x.id ≠ d.group) :
    x'.order = x.order.filter (· ≠ ⟨kind, id⟩) := by
  by_cases held : ⟨kind, id⟩ ∈ x.order
  · exact h.source x hx x' hx' same other held
  · rw [h.bystanders x hx x' hx' same other held, filter_ne_of_not_mem held]

/-- The moved node aside, all groups keep their order. -/
theorem others (h : Moved g g' kind id d) {x x' : Group} (hx : x ∈ g.family)
    (hx' : x' ∈ g'.family) (same : x'.id = x.id) :
    x'.order.filter (· ≠ ⟨kind, id⟩) = x.order.filter (· ≠ ⟨kind, id⟩) := by
  by_cases into : x.id = d.group
  · exact (h.target x hx x' hx' same into).others (by simp)
  · rw [h.elsewhere hx hx' same into, List.filter_filter]
    simp

/-- The nodes stay. -/
theorem has (h : Moved g g' kind id d) {k : Kind} {n : NodeId} : g'.Has k n ↔ g.Has k n := by
  cases k with
  | condition => simp only [Has, h.conditions.mem_iff]
  | group =>
    have ids : (g'.family.map Group.id).Perm (g.family.map Group.id) := by
      simpa [shells, shell, Shell.head, Function.comp_def] using h.groups.map Prod.fst
    simpa [Has] using ids.mem_iff (a := n)

/-- A group that is moved is in the outline as it was. -/
theorem group (h : Moved g g' .group id d) : ∃ z ∈ g.family, z ∈ g'.family ∧ z.id = id := by
  obtain ⟨i, ref, ⟨x, hx, stood⟩, x', hx', -, stands⟩ := h.item
  obtain ⟨_, _, rfl⟩ | ⟨z, hz, rfl⟩ := mem_of_mem_children stood
  · cases congrArg ChildRef.kind ref
  · obtain ⟨_, _, same⟩ | ⟨z', hz', same⟩ := mem_of_mem_children stands
    · cases same
    · obtain rfl := Item.group.inj same
      exact ⟨z, mem_family_trans (mem_family_of_mem hz) hx,
        mem_family_trans (mem_family_of_mem hz') hx', congrArg ChildRef.id ref⟩

end Moved

end

end Group

end FieldFilter
