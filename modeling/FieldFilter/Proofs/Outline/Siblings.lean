import FieldFilter.Proofs.Outline.Items

/-!
# The children of a group as they stand

A child is found by its entry in the order. Among the conditions and among the groups of a group,
one more or one less makes no difference to the other entries (`child?_skip_condition`,
`child?_skip_group`). So a child that comes last stands after the others (`children_append`), around
one that goes they stay as they stand (`children_detachChild`), and one that is exchanged for
another with its id leaves it its place (`children_exchange_condition`, `children_exchange_group`).
-/

namespace FieldFilter.Group

/-! ## Entries -/

/-- An element that a search passes over can be left out. -/
theorem find?_skip {β : Type} {p : β → Bool} {a : β} (before rest : List β) (pass : p a = false) :
    (before ++ a :: rest).find? p = (before ++ rest).find? p := by
  rw [List.find?_append, List.find?_append, List.find?_cons_of_neg (by simp [pass])]

/-- Under a key that is not among those before it, an element is the one that is found. -/
theorem find?_middle {β : Type} {key : β → NodeId} {before rest : List β} {a : β} {id : NodeId}
    (new : id ∉ before.map key) (own : key a = id) :
    (before ++ a :: rest).find? (key · == id) = some a := by
  have none : before.find? (key · == id) = none := by
    refine List.find?_eq_none.2 fun b hb same => new ?_
    exact List.mem_map.2 ⟨b, hb, by simpa using same⟩
  rw [List.find?_append, none, Option.none_or, List.find?_cons_of_pos (by simp [own])]

section
variable {id : NodeId} {j : Junction} {r : ChildRef}

/-- Entries other than its own do not stand for a condition. -/
theorem child?_skip_condition {c : Condition} (other : r ≠ ⟨.condition, c.id⟩)
    (before rest : List Condition) (gs : List Group) (order order' : List ChildRef) :
    child? ⟨id, j, before ++ c :: rest, gs, order⟩ r =
      child? ⟨id, j, before ++ rest, gs, order'⟩ r := by
  obtain ⟨kind, key⟩ := r
  cases kind with
  | condition =>
    have pass : (c.id == key) = false := by
      simpa using fun same : c.id = key => other (by rw [same])
    exact congrArg (Option.map Item.condition) (find?_skip before rest pass)
  | group => rfl

/-- Entries other than its own do not stand for a subgroup. -/
theorem child?_skip_group {x : Group} (other : r ≠ ⟨.group, x.id⟩) (cs : List Condition)
    (before rest : List Group) (order order' : List ChildRef) :
    child? ⟨id, j, cs, before ++ x :: rest, order⟩ r =
      child? ⟨id, j, cs, before ++ rest, order'⟩ r := by
  obtain ⟨kind, key⟩ := r
  cases kind with
  | condition => rfl
  | group =>
    have pass : (x.id == key) = false := by
      simpa using fun same : x.id = key => other (by rw [same])
    exact congrArg (Option.map Item.group) (find?_skip before rest pass)

end

theorem nodup_order_ids {g : Group} (ordered : g.Ordered) (ids : g.ids.Nodup) :
    (g.order.map ChildRef.id).Nodup :=
  (ordered.map ChildRef.id).nodup_iff.2 (nodup_refs_ids ids)

theorem nodup_order {g : Group} (ordered : g.Ordered) (ids : g.ids.Nodup) : g.order.Nodup :=
  .of_map _ (nodup_order_ids ordered ids)

/-- The entries of the order stand for what the group holds. -/
theorem child?_of_mem_order {g : Group} (ordered : g.Ordered) (ids : g.ids.Nodup) {r : ChildRef}
    (hr : r ∈ g.order) :
    (∃ c ∈ g.conditions, r = ⟨.condition, c.id⟩ ∧ g.child? r = some (.condition c)) ∨
      ∃ x ∈ g.groups, r = ⟨.group, x.id⟩ ∧ g.child? r = some (.group x) := by
  obtain held | held := List.mem_append.1 (ordered.mem_iff.1 hr)
  · obtain ⟨c, hc, rfl⟩ := List.mem_map.1 held
    have found := find?_of_nodup (nodup_conditions ids) hc
    exact .inl ⟨c, hc, rfl, congrArg (Option.map Item.condition) found⟩
  · obtain ⟨x, hx, rfl⟩ := List.mem_map.1 held
    have found := find?_of_nodup (nodup_groups ids) hx
    exact .inr ⟨x, hx, rfl, congrArg (Option.map Item.group) found⟩

theorem exists_child? {g : Group} (ordered : g.Ordered) (ids : g.ids.Nodup) {r : ChildRef}
    (hr : r ∈ g.order) : ∃ i, g.child? r = some i := by
  obtain ⟨c, -, -, found⟩ | ⟨x, -, -, found⟩ := child?_of_mem_order ordered ids hr
  · exact ⟨_, found⟩
  · exact ⟨_, found⟩

/-- Around the child that an entry stands for, the others stand as the order has them. -/
theorem children_around {g : Group} {r : ChildRef} {i : Item} (hr : r ∈ g.order)
    (unique : g.order.Nodup) (found : g.child? r = some i) :
    ∃ front back, g.order = front ++ r :: back ∧ r ∉ front ++ back ∧
      g.children = front.filterMap g.child? ++ i :: back.filterMap g.child? := by
  obtain ⟨front, back, split⟩ := List.append_of_mem hr
  refine ⟨front, back, split, (List.nodup_middle.1 (split ▸ unique)).notMem, ?_⟩
  rw [children, split, List.filterMap_append, List.filterMap_cons_some found]

/-! ## A child that comes -/

theorem child?_insertChild {item : Item} {r : ChildRef} (other : r ≠ item.ref)
    (index : Option Nat) (g : Group) : (insertChild item index g).child? r = g.child? r := by
  obtain ⟨id, j, cs, gs, order⟩ := g
  cases item with
  | condition c => simpa [insertChild] using child?_skip_condition other cs [] gs _ order
  | group h => simpa [insertChild] using child?_skip_group other cs gs [] _ order

theorem child?_insertChild_self {item : Item} {g : Group} (new : item.ref ∉ g.refs)
    (index : Option Nat) : (insertChild item index g).child? item.ref = some item := by
  cases item with
  | condition c =>
    have found : (g.conditions ++ [c]).find? (·.id == c.id) = some c :=
      find?_middle (mt condition_mem_refs.2 new) rfl
    exact congrArg (Option.map Item.condition) found
  | group h =>
    have found : (g.groups ++ [h]).find? (·.id == h.id) = some h :=
      find?_middle (mt group_mem_refs.2 new) rfl
    exact congrArg (Option.map Item.group) found

theorem order_insertChild (item : Item) (index : Option Nat) (g : Group) :
    (insertChild item index g).order =
      g.order.insertIdx (min (index.getD g.order.length) g.order.length) item.ref := by
  cases item <;> rfl

/-- A new child that is put last stands after the others. -/
theorem children_append {item : Item} {g : Group} (ordered : g.Ordered) (new : item.ref ∉ g.refs) :
    (insertChild item none g).children = g.children ++ [item] := by
  have order : (insertChild item none g).order = g.order ++ [item.ref] := by
    rw [order_insertChild, Option.getD_none, Nat.min_self, List.insertIdx_length_self]
  have others : ∀ r ∈ g.order, (insertChild item none g).child? r = g.child? r := by
    intro r hr
    exact child?_insertChild (fun same => new (same ▸ ordered.mem_iff.1 hr)) none g
  rw [children, order, List.filterMap_append, List.filterMap_congr others,
    List.filterMap_cons_some (child?_insertChild_self new none)]
  rfl

/-! ## A child that goes -/

section
variable {kind : Kind} {id : NodeId} {g g' : Group} {item : Item}

theorem child?_detachChild (h : g.detachChild kind id = some (g', item)) {r : ChildRef}
    (other : r ≠ item.ref) : g'.child? r = g.child? r := by
  obtain ⟨gid, j, cs, gs, order⟩ := g
  obtain ⟨-, ⟨c, before, rest, rfl, rfl, rfl⟩ | ⟨x, before, rest, rfl, rfl, rfl⟩⟩ :=
    detachChild_split h
  · exact (child?_skip_condition other before rest gs order _).symm
  · exact (child?_skip_group other cs before rest order _).symm

/-- The entry of the child that is taken out stood for it. -/
theorem child?_of_detachChild (h : g.detachChild kind id = some (g', item)) :
    g.child? item.ref = some item := by
  obtain ⟨ref, -⟩ := detachChild_split h
  rw [ref]
  cases kind with
  | condition =>
    obtain ⟨c, found, he⟩ := Option.map_eq_some_iff.1 h
    obtain ⟨-, rfl⟩ := Prod.mk.inj he
    exact congrArg (Option.map Item.condition) found
  | group =>
    obtain ⟨x, found, he⟩ := Option.map_eq_some_iff.1 h
    obtain ⟨-, rfl⟩ := Prod.mk.inj he
    exact congrArg (Option.map Item.group) found

/-- What an entry stands for can be taken out. -/
theorem exists_detachChild {r : ChildRef} (found : g.child? r = some item) :
    ∃ g', g.detachChild r.kind r.id = some (g', item) := by
  obtain ⟨kind, id⟩ := r
  cases kind with
  | condition =>
    obtain ⟨c, held, rfl⟩ := Option.map_eq_some_iff.1 found
    exact ⟨_, congrArg (Option.map _) held⟩
  | group =>
    obtain ⟨x, held, rfl⟩ := Option.map_eq_some_iff.1 found
    exact ⟨_, congrArg (Option.map _) held⟩

/-- The children around one that is taken out stay as they stand. -/
theorem children_detachChild (h : g.detachChild kind id = some (g', item)) (ordered : g.Ordered)
    (ids : g.ids.Nodup) :
    ∃ before after, g.children = before ++ item :: after ∧ g'.children = before ++ after := by
  obtain ⟨front, back, split, absent, stand⟩ :=
    children_around (ref_mem_order h ordered) (nodup_order ordered ids) (child?_of_detachChild h)
  have order : g'.order = front ++ back := by
    rw [order_detachChild h, split, filter_ne_middle absent]
  refine ⟨_, _, stand, ?_⟩
  rw [children, order, ← List.filterMap_append]
  exact List.filterMap_congr fun r hr => child?_detachChild h fun same => absent (same ▸ hr)

end

/-! ## A child that changes -/

/-- A child that is exchanged for another one, under the same entry, leaves the others as they
stand. -/
theorem children_exchange {g g' : Group} {r : ChildRef} {i i' : Item} (order : g'.order = g.order)
    (hr : r ∈ g.order) (unique : g.order.Nodup) (found : g.child? r = some i)
    (found' : g'.child? r = some i') (others : ∀ q, q ≠ r → g'.child? q = g.child? q) :
    ∃ before after, g.children = before ++ i :: after ∧ g'.children = before ++ i' :: after := by
  obtain ⟨front, back, split, absent, stand⟩ := children_around hr unique found
  obtain ⟨first, last⟩ := not_or.1 (mt List.mem_append.2 absent)
  refine ⟨_, _, stand, ?_⟩
  rw [children, order, split, List.filterMap_append, List.filterMap_cons_some found']
  congr 1
  · exact List.filterMap_congr fun q hq => others q fun same => first (same ▸ hq)
  · exact congrArg _ (List.filterMap_congr fun q hq => others q fun same => last (same ▸ hq))

section
variable {id : NodeId} {j : Junction} {order : List ChildRef}

theorem children_exchange_condition {before rest : List Condition} {gs : List Group}
    {c : Condition} (c' : Condition) (same : c'.id = c.id)
    (ordered : Ordered ⟨id, j, before ++ c :: rest, gs, order⟩)
    (unique : (ids ⟨id, j, before ++ c :: rest, gs, order⟩).Nodup) :
    ∃ front back, children ⟨id, j, before ++ c :: rest, gs, order⟩ =
        front ++ .condition c :: back ∧
      children ⟨id, j, before ++ c' :: rest, gs, order⟩ = front ++ .condition c' :: back := by
  have new : c.id ∉ before.map Condition.id := by
    have conditions := nodup_conditions unique
    rw [List.map_append, List.nodup_append] at conditions
    exact fun hc => conditions.2.2 c.id hc c.id (by simp) rfl
  have entry : ⟨.condition, c.id⟩ ∈ order :=
    ordered.mem_iff.2 (List.mem_append_left _ (by simp))
  refine children_exchange rfl entry (nodup_order ordered unique)
    (congrArg (Option.map Item.condition) (find?_middle new rfl))
    (congrArg (Option.map Item.condition) (find?_middle new same)) fun q other => ?_
  rw [child?_skip_condition other before rest gs order order]
  exact child?_skip_condition (same ▸ other) before rest gs order order

theorem children_exchange_group {cs : List Condition} {before rest : List Group} {x : Group}
    (x' : Group) (same : x'.id = x.id)
    (ordered : Ordered ⟨id, j, cs, before ++ x :: rest, order⟩)
    (unique : (ids ⟨id, j, cs, before ++ x :: rest, order⟩).Nodup) :
    ∃ front back, children ⟨id, j, cs, before ++ x :: rest, order⟩ = front ++ .group x :: back ∧
      children ⟨id, j, cs, before ++ x' :: rest, order⟩ = front ++ .group x' :: back := by
  have new : x.id ∉ before.map Group.id := by
    have groups := nodup_groups unique
    rw [List.map_append, List.nodup_append] at groups
    exact fun hx => groups.2.2 x.id hx x.id (by simp) rfl
  have entry : ⟨.group, x.id⟩ ∈ order := ordered.mem_iff.2 (List.mem_append_right _ (by simp))
  refine children_exchange rfl entry (nodup_order ordered unique)
    (congrArg (Option.map Item.group) (find?_middle new rfl))
    (congrArg (Option.map Item.group) (find?_middle new same)) fun q other => ?_
  rw [child?_skip_group other cs before rest order order]
  exact child?_skip_group (same ▸ other) cs before rest order order

end

end FieldFilter.Group
