import FieldFilter.Outline.Written
import FieldFilter.Proofs.Outline.Intact

/-!
# Groups of given items

`ofItems` is the group whose children are given as they stand. Its nodes are those of the items, its
order lists them, and if their ids differ its children are the items again. The expression of any
group is made from its children alone (`expression?_eq`).
-/

namespace FieldFilter

variable {α : Type}

namespace Item

def condition? : Item → Option Condition
  | condition c => some c
  | group _ => none

def group? : Item → Option Group
  | condition _ => none
  | group g => some g

def expression? : Item → Option Json
  | condition c => c.expression?
  | group g => g.expression?

@[simp] theorem condition?_condition (c : Condition) : (condition c).condition? = some c := rfl

@[simp] theorem condition?_group (g : Group) : (group g).condition? = none := rfl

@[simp] theorem group?_condition (c : Condition) : (condition c).group? = none := rfl

@[simp] theorem group?_group (g : Group) : (group g).group? = some g := rfl

/-- What is gathered from items can be gathered from the conditions first. -/
theorem perm_by_kind (f : Item → List α) (is : List Item) :
    (is.flatMap f).Perm ((is.filterMap condition?).flatMap (fun c => f (condition c)) ++
      (is.filterMap group?).flatMap fun g => f (group g)) := by
  induction is with
  | nil => exact .nil
  | cons i rest ih =>
    cases i with
    | condition c =>
      rw [List.filterMap_cons_some (condition?_condition c), List.filterMap_cons_none rfl]
      simpa using ih.append_left (f (condition c))
    | group g =>
      rw [List.filterMap_cons_none rfl, List.filterMap_cons_some (group?_group g)]
      refine (ih.append_left (f (group g))).trans ?_
      simpa using List.perm_append_comm_assoc ..

end Item

namespace Group

/-- The group with the given children. -/
def ofItems (id : NodeId) (j : Junction) (is : List Item) : Group :=
  ⟨id, j, is.filterMap Item.condition?, is.filterMap Item.group?, is.map Item.ref⟩

section
variable (id : NodeId) (j : Junction) (is : List Item)

theorem ordered_ofItems : (ofItems id j is).Ordered := by
  rw [Ordered, refs, List.map_eq_flatMap, List.map_eq_flatMap, ofItems, List.map_eq_flatMap]
  exact Item.perm_by_kind (fun i => [i.ref]) is

theorem ids_ofItems : (ofItems id j is).ids.Perm (id :: is.flatMap Item.ids) := by
  rw [ids_eq, ownIds, List.map_eq_flatMap]
  exact (Item.perm_by_kind Item.ids is).symm.cons id

theorem leaves_ofItems : (ofItems id j is).leaves.Perm (is.flatMap Item.leaves) := by
  rw [leaves_eq]
  simpa [ofItems, Item.leaves] using (Item.perm_by_kind Item.leaves is).symm

variable {id j is}

theorem mem_family_ofItems {x : Group} (hx : x ∈ (ofItems id j is).family) :
    x = ofItems id j is ∨ ∃ i ∈ is, x ∈ i.family := by
  obtain rfl | ⟨y, hy, within⟩ := mem_family_iff.1 hx
  · exact .inl rfl
  · obtain ⟨i, hi, he⟩ := List.mem_filterMap.1 hy
    cases i with
    | condition c => cases he
    | group g =>
      obtain rfl : g = y := by simpa using he
      exact .inr ⟨.group g, hi, within⟩

/-- A list with different keys is searched for a key with one answer. -/
theorem find?_of_nodup {β γ : Type} [BEq γ] [LawfulBEq γ] {key : β → γ} {l : List β} {a : β}
    (unique : (l.map key).Nodup) (ha : a ∈ l) : l.find? (key · == key a) = some a := by
  induction l with
  | nil => cases ha
  | cons b rest ih =>
    obtain ⟨absent, unique⟩ := List.nodup_cons.1 unique
    rcases List.mem_cons.1 ha with rfl | ha
    · simp
    · have apart : key b ≠ key a := fun same => absent (same ▸ List.mem_map_of_mem ha)
      rw [List.find?_cons_of_neg (by simpa using apart)]
      exact ih unique ha

/-- Items with different ids can be found again under them among those of one kind. -/
theorem find?_kind {β : Type} {f : Item → Option β} {k : β → NodeId} {i : Item} {b : β}
    (same : ∀ i b, f i = some b → k b = i.id) (unique : (is.map Item.id).Nodup) (hi : i ∈ is)
    (hb : f i = some b) : (is.filterMap f).find? (k · == i.id) = some b := by
  have apart : ((is.filterMap f).map k).Nodup := by
    refine List.pairwise_map.2 (List.Pairwise.filterMap f ?_ (List.pairwise_map.1 unique))
    intro i i' differ b hb b' hb'
    rwa [same i b hb, same i' b' hb']
  rw [← same i b hb]
  exact find?_of_nodup apart (List.mem_filterMap.2 ⟨i, hi, hb⟩)

/-- Items with different ids are the children of their group as they stand. -/
theorem children_ofItems (unique : (is.map Item.id).Nodup) : (ofItems id j is).children = is := by
  have own : ∀ i ∈ is, (ofItems id j is).child? i.ref = some i := by
    intro i hi
    cases i with
    | condition c =>
      have found := find?_kind (f := Item.condition?) (k := Condition.id)
        (fun i b h => by cases i <;> cases h; rfl) unique hi rfl
      exact congrArg (Option.map Item.condition) found
    | group g =>
      have found := find?_kind (f := Item.group?) (k := Group.id)
        (fun i b h => by cases i <;> cases h; rfl) unique hi rfl
      exact congrArg (Option.map Item.group) found
  have order : (ofItems id j is).order = is.map Item.ref := rfl
  rw [children, order, List.filterMap_map]
  exact (List.filterMap_congr own).trans List.filterMap_some

/-! ## Expressions -/

theorem lookup_expressions (gs : List Group) (id : NodeId) :
    ((expressions gs).lookup id).join = (gs.find? (·.id == id)).bind expression? := by
  induction gs with
  | nil => rfl
  | cons g rest ih =>
    rw [expressions, List.lookup_cons, List.find?_cons, BEq.comm]
    split <;> simp_all

/-- The expression of a group joins the expressions of its children. -/
theorem expression?_eq (g : Group) :
    g.expression? = joined? g.junction (g.children.filterMap Item.expression?) := by
  obtain ⟨id, j, cs, gs, order⟩ := g
  rw [expression?, children, List.filterMap_filterMap]
  congr 2
  funext ⟨kind, id⟩
  cases kind with
  | condition => simp [child?, Option.bind_map, Function.comp_def, Item.expression?]
  | group => simp [child?, lookup_expressions, Option.bind_map, Function.comp_def, Item.expression?]

end

end Group

end FieldFilter
