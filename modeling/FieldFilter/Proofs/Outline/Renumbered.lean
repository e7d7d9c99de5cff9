import FieldFilter.Proofs.Outline.Normal

/-!
# Other ids

`renumber f` puts every id of an outline another way. The expression of an outline does not depend
on its ids (`expression?_renumber`), and what is read from an expression depends on the first id
only in its ids (`ofExpression_renumber`). `Resembles` is sameness but for the ids below the root.
-/

namespace FieldFilter

def Condition.renumber (f : NodeId → NodeId) (c : Condition) : Condition := { c with id := f c.id }

def ChildRef.renumber (f : NodeId → NodeId) (r : ChildRef) : ChildRef := { r with id := f r.id }

namespace Group

mutual

/-- The outline with every id put another way. -/
def renumber (f : NodeId → NodeId) : Group → Group
  | ⟨id, junction, conditions, groups, order⟩ =>
    ⟨f id, junction, conditions.map (Condition.renumber f), renumberAll f groups,
      order.map (ChildRef.renumber f)⟩

def renumberAll (f : NodeId → NodeId) : List Group → List Group
  | [] => []
  | g :: rest => g.renumber f :: renumberAll f rest

end

/-- The outlines have one root id, and are the same but for the ids of the other nodes, which are
put another way in the second one, different ids in different ways. -/
def Resembles (g g' : Group) : Prop :=
  ∃ f : NodeId → NodeId, f g.id = g.id ∧ (∀ a ∈ g.ids, ∀ b ∈ g.ids, f a = f b → a = b) ∧
    g' = g.renumber f

end Group

def Item.renumber (f : NodeId → NodeId) : Item → Item
  | condition c => condition (c.renumber f)
  | group g => group (g.renumber f)

namespace Group

theorem renumberAll_eq (f : NodeId → NodeId) (gs : List Group) :
    renumberAll f gs = gs.map (renumber f) := by
  induction gs with
  | nil => rfl
  | cons g rest ih => rw [renumberAll, ih, List.map_cons]

section
variable (f : NodeId → NodeId) (g : Group)

@[simp] theorem renumber_id : (g.renumber f).id = f g.id := by
  cases g
  rfl

@[simp] theorem renumber_junction : (g.renumber f).junction = g.junction := by
  cases g
  rfl

@[simp] theorem renumber_conditions :
    (g.renumber f).conditions = g.conditions.map (Condition.renumber f) := by
  cases g
  rfl

@[simp] theorem renumber_groups : (g.renumber f).groups = g.groups.map (renumber f) := by
  cases g
  rw [renumber, renumberAll_eq]

@[simp] theorem renumber_order : (g.renumber f).order = g.order.map (ChildRef.renumber f) := by
  cases g
  rfl

theorem renumber_withId (id : NodeId) :
    { g with id := id }.renumber f = { g.renumber f with id := f id } := by
  cases g
  rfl

end

theorem renumber_self (g : Group) : g.renumber (fun id => id) = g := by
  induction g using induct with
  | step g ih =>
    obtain ⟨id, j, cs, gs, order⟩ := g
    have conditions : cs.map (Condition.renumber fun id => id) = cs := cs.map_id'
    have groups : gs.map (renumber fun id => id) = gs := (List.map_congr_left ih).trans gs.map_id'
    have entries : order.map (ChildRef.renumber fun id => id) = order := order.map_id'
    rw [renumber, renumberAll_eq, conditions, groups, entries]

theorem resembles_self (g : Group) : g.Resembles g :=
  ⟨fun id => id, rfl, fun _ _ _ _ same => same, (renumber_self g).symm⟩

/-! ## Children and expressions -/

section
variable {f : NodeId → NodeId}

/-- What is searched for under its new id is found where it was. -/
theorem find?_renumber {α : Type} (apart : Function.Injective f) (key : α → NodeId) (put : α → α)
    (moved : ∀ a, key (put a) = f (key a)) (l : List α) (id : NodeId) :
    (l.map put).find? (key · == f id) = (l.find? (key · == id)).map put := by
  rw [List.find?_map]
  congr 2
  funext a
  simp [moved, apart.eq_iff]

theorem child?_renumber (apart : Function.Injective f) (g : Group) (r : ChildRef) :
    (g.renumber f).child? (r.renumber f) = (g.child? r).map (Item.renumber f) := by
  obtain ⟨kind, id⟩ := r
  cases kind with
  | condition =>
    have found :=
      find?_renumber apart Condition.id (Condition.renumber f) (fun _ => rfl) g.conditions id
    simp only [child?, ChildRef.renumber, renumber_conditions, found, Option.map_map]
    rfl
  | group =>
    have found := find?_renumber apart Group.id (renumber f) (renumber_id f) g.groups id
    simp only [child?, ChildRef.renumber, renumber_groups, found, Option.map_map]
    rfl

theorem children_renumber (apart : Function.Injective f) (g : Group) :
    (g.renumber f).children = g.children.map (Item.renumber f) := by
  rw [children, renumber_order, List.filterMap_map, children, List.map_filterMap]
  congr 1
  funext r
  exact child?_renumber apart g r

/-- What is written of an outline does not show its ids. -/
theorem expression?_renumber (apart : Function.Injective f) (g : Group) :
    (g.renumber f).expression? = g.expression? := by
  induction g using induct with
  | step g ih =>
    have each : ∀ i ∈ g.children, (i.renumber f).expression? = i.expression? := by
      intro i hi
      obtain ⟨c, -, rfl⟩ | ⟨x, hx, rfl⟩ := mem_of_mem_children hi
      · rfl
      · exact ih x hx
    rw [expression?_eq, expression?_eq, renumber_junction, children_renumber apart,
      List.filterMap_map]
    congr 1
    exact List.filterMap_congr each

theorem expression?_withId (g : Group) (id : NodeId) :
    { g with id := id }.expression? = g.expression? := by
  cases g
  rfl

theorem renumber_ofItems (id : NodeId) (j : Junction) (is : List Item) :
    (ofItems id j is).renumber f = ofItems (f id) j (is.map (Item.renumber f)) := by
  have conditions : (is.map (Item.renumber f)).filterMap Item.condition? =
      (is.filterMap Item.condition?).map (Condition.renumber f) := by
    rw [List.filterMap_map, List.map_filterMap]
    congr 1
    funext i
    cases i <;> rfl
  have groups : (is.map (Item.renumber f)).filterMap Item.group? =
      (is.filterMap Item.group?).map (renumber f) := by
    rw [List.filterMap_map, List.map_filterMap]
    congr 1
    funext i
    cases i <;> rfl
  have entry (i : Item) : (i.renumber f).ref = i.ref.renumber f := by
    cases i with
    | condition c => rfl
    | group g => simp [Item.renumber, Item.ref, Item.kind, Item.id, ChildRef.renumber]
  rw [ofItems, renumber, renumberAll_eq, ofItems, conditions, groups, List.map_map, List.map_map]
  congr 1
  exact List.map_congr_left fun i _ => (entry i).symm

end

end Group

/-! ## Reading with other ids -/

namespace Reading

open FieldFilter.Group

variable {f : NodeId → NodeId} {vs : List Json} {is is' : List Item} {n m m' : NodeId}

theorem condition?_renumber (op : Operator) (arguments : List Json) (n : NodeId) :
    condition? op arguments (f n) = (condition? op arguments n).map (Condition.renumber f) := by
  cases arguments with
  | nil => rfl
  | cons reference values => simp [condition?, Condition.renumber, Function.comp_def]

theorem Reads.le (h : Reads n vs is m) : n ≤ m := by
  obtain ⟨k, rfl, -⟩ := h.numbered.drawn
  exact Nat.le_add_right n k

/-- The same items are read with ids that are put another way, if ids in a row stay in a row. -/
theorem Reads.renumber (h : Reads n vs is m) (row : ∀ x, n ≤ x → f (x + 1) = f x + 1) :
    Reads (f n) vs (is.map (Item.renumber f)) (f m) := by
  induction h with
  | nil n => exact .nil (f n)
  | other hg hc _ ih => exact .other hg hc (ih row)
  | nameless known unread _ ih =>
    refine .nameless known ?_ (ih row)
    rw [condition?_renumber, unread]
    rfl
  | @condition _ _ _ _ c _ n _ known read _ ih =>
    have later := ih fun x hx => row x (Nat.le_of_succ_le hx)
    rw [row n (Nat.le_refl n)] at later
    refine .condition (c := c.renumber f) known ?_ later
    rw [condition?_renumber, read]
    rfl
  | @group _ j _ _ inner _ n _ _ known first _ ih ih' =>
    have inside := ih fun x hx => row x (Nat.le_of_succ_le hx)
    rw [row n (Nat.le_refl n)] at inside
    rw [List.map_cons, Item.renumber, renumber_ofItems]
    exact .group known inside (ih' fun x hx => row x (Nat.le_trans (Nat.le_of_succ_le first.le) hx))

/-- Nothing else is read from the same elements. -/
theorem Reads.unique (h : Reads n vs is m) (h' : Reads n vs is' m') : is = is' ∧ m = m' := by
  induction h generalizing is' m' with
  | nil =>
    cases h'
    exact ⟨rfl, rfl⟩
  | other hg hc _ ih =>
    cases h' with
    | other _ _ h' => exact ih h'
    | nameless known => exact absurd known (hc _)
    | condition known => exact absurd known (hc _)
    | group known => exact absurd known (hg _)
  | nameless known unread _ ih =>
    cases h' with
    | other _ hc _ => exact absurd known (hc _)
    | nameless _ _ h' => exact ih h'
    | condition known' read =>
      cases known.symm.trans known'
      rw [unread] at read
      cases read
    | group known' => cases known.symm.trans known'
  | condition known read _ ih =>
    cases h' with
    | other _ hc _ => exact absurd known (hc _)
    | nameless known' unread =>
      cases known.symm.trans known'
      rw [unread] at read
      cases read
    | condition known' read' h' =>
      cases known.symm.trans known'
      cases read.symm.trans read'
      obtain ⟨rfl, rfl⟩ := ih h'
      exact ⟨rfl, rfl⟩
    | group known' => cases known.symm.trans known'
  | group known _ _ ih ih' =>
    cases h' with
    | other hg _ _ => exact absurd known (hg _)
    | nameless known' => cases known.symm.trans known'
    | condition known' => cases known.symm.trans known'
    | group known' inner h' =>
      cases known.symm.trans known'
      obtain ⟨rfl, rfl⟩ := ih inner
      obtain ⟨rfl, rfl⟩ := ih' h'
      exact ⟨rfl, rfl⟩

/-- With another first id an expression is read into the same outline, put another way. -/
theorem ofExpression_renumber (e : Json) {n : NodeId} (row : ∀ x, n ≤ x → f (x + 1) = f x + 1) :
    (ofExpression e (f n)).root = (ofExpression e n).root.renumber f := by
  obtain ⟨is, root, read⟩ := ofExpression_reads e n
  obtain ⟨is', root', read'⟩ := ofExpression_reads e (f n)
  have same := read.renumber fun x hx => row x (Nat.le_of_succ_le hx)
  rw [row n (Nat.le_refl n)] at same
  obtain ⟨rfl, -⟩ := same.unique read'
  rw [root, root', renumber_ofItems]

end Reading

end FieldFilter
