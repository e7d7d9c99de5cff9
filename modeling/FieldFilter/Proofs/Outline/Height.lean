import FieldFilter.Proofs.Outline.Items
import Mathlib.Data.List.Pairwise

/-!
# How deep outlines are

`Sits n x g` says that the group `x` stands in `g` inside `n` groups. Where ids differ, a group
stands at one depth, and that is the depth that a search for its id finds (`Sits.depth?`). The
height is the least bound of all depths (`Sits.height_le`, `height_le_of_sits`), and some group
stands that deep (`exists_sits_height`); so it is enough to know where the groups of a changed
outline stand. Inserting makes the outline no higher than it was or than the new node reaches below
its group (`insert_height`); detaching leaves every group where it is (`sits_of_detach`), and the
height does not grow (`detach_height`). Inserting leaves the groups where they are, too, other than
those that come with the node (`sits_of_insert`).
-/

namespace FieldFilter

/-- The most groups on a path from a node down. -/
def Item.height : Item → Nat
  | .condition _ => 0
  | .group g => g.height

namespace Group

/-! ## Heights -/

theorem heightOfAll_le_iff {gs : List Group} {n : Nat} :
    heightOfAll gs ≤ n ↔ ∀ g ∈ gs, g.height ≤ n := by
  induction gs with
  | nil => simp [heightOfAll]
  | cons g rest ih =>
    rw [heightOfAll, List.forall_mem_cons, ← ih]
    exact Nat.max_le

theorem height_le_iff {g : Group} {n : Nat} :
    g.height ≤ n + 1 ↔ ∀ x ∈ g.groups, x.height ≤ n := by
  obtain ⟨id, j, cs, gs, order⟩ := g
  rw [height, Nat.add_comm, Nat.add_le_add_iff_right, heightOfAll_le_iff]

/-- The height is that of the subgroups. -/
theorem height_congr {g h : Group} (same : g.groups = h.groups) : g.height = h.height := by
  obtain ⟨_, _, _, gs, _⟩ := g
  obtain ⟨_, _, _, hs, _⟩ := h
  obtain rfl : gs = hs := same
  rw [height, height]

theorem height_pos (g : Group) : 0 < g.height := by
  obtain ⟨id, j, cs, gs, order⟩ := g
  rw [height]
  omega

/-- A group stands in another one inside `n` groups. -/
inductive Sits : Nat → Group → Group → Prop
  | here (g : Group) : Sits 0 g g
  | inside {n : Nat} {x c g : Group} : c ∈ g.groups → Sits n x c → Sits (n + 1) x g

theorem exists_sits (g : Group) : ∀ x ∈ g.family, ∃ n, Sits n x g := by
  induction g using induct with
  | step g ih =>
    intro x hx
    obtain rfl | ⟨c, hc, hx⟩ := mem_family_iff.1 hx
    · exact ⟨0, .here x⟩
    · obtain ⟨n, h⟩ := ih c hc x hx
      exact ⟨n + 1, .inside hc h⟩

namespace Sits

variable {n m : Nat} {x y g h : Group}

theorem mem (hx : Sits n x g) : x ∈ g.family := by
  induction hx with
  | here g => exact mem_family_self g
  | inside hc _ ih => exact mem_family_trans ih (mem_family_of_mem hc)

theorem id_mem_ids (hx : Sits n x g) : x.id ∈ g.ids :=
  List.mem_flatMap.2 ⟨x, hx.mem, List.mem_cons_self⟩

theorem trans (hh : Sits m h g) (hx : Sits n x h) : Sits (m + n) x g := by
  induction hh with
  | here g => simpa using hx
  | @inside m h c g hc _ ih =>
    have deeper := Sits.inside hc (ih hx)
    rwa [Nat.add_right_comm] at deeper

theorem height_le (hx : Sits n x g) : n + x.height ≤ g.height := by
  induction hx with
  | here g => simp
  | @inside n x c g hc _ ih =>
    have pos := g.height_pos
    have below : c.height ≤ g.height - 1 := height_le_iff.1 (by omega) c hc
    omega

/-- Groups below different children have different ids. -/
theorem same_child {c d : Group} (hx : Sits n x c) (hy : Sits m y d) (same : x.id = y.id)
    (hc : c ∈ g.groups) (hd : d ∈ g.groups) (ids : g.ids.Nodup) : c = d := by
  rw [ids_eq, List.nodup_append] at ids
  obtain ⟨-, below, -⟩ := ids
  obtain ⟨-, disjoint⟩ := List.nodup_flatMap.1 below
  have symm : Std.Symm (Function.onFun List.Disjoint Group.ids) :=
    ⟨fun _ _ apart _ ha hb => apart hb ha⟩
  by_contra differ
  exact disjoint.forall hc hd differ hx.id_mem_ids (same ▸ hy.id_mem_ids)

/-- The id of a group differs from those of the groups below it. -/
theorem id_ne {c : Group} (hx : Sits n x c) (hc : c ∈ g.groups) (ids : g.ids.Nodup) :
    g.id ≠ x.id := by
  rw [ids_eq, List.nodup_append] at ids
  obtain ⟨-, -, apart⟩ := ids
  apply apart g.id List.mem_cons_self
  exact List.mem_flatMap.2 ⟨c, hc, hx.id_mem_ids⟩

/-- Where ids differ, a group stands at one place. -/
theorem unique (hx : Sits n x g) (ids : g.ids.Nodup) :
    ∀ {m y}, Sits m y g → x.id = y.id → n = m ∧ x = y := by
  induction hx with
  | here g =>
    intro m y hy same
    cases hy with
    | here => exact ⟨rfl, rfl⟩
    | inside hc hy => exact absurd same (hy.id_ne hc ids)
  | @inside n x c g hc hx ih =>
    intro m y hy same
    cases hy with
    | here => exact absurd same.symm (hx.id_ne hc ids)
    | inside hd hy =>
      obtain rfl := same_child hx hy same hc hd ids
      obtain ⟨rfl, rfl⟩ := ih (nodup_of_mem (mem_family_of_mem hc) ids) hy same
      exact ⟨rfl, rfl⟩

end Sits

/-- Where ids differ, a group is told by its id. -/
theorem eq_of_id {g x y : Group} (ids : g.ids.Nodup) (hx : x ∈ g.family) (hy : y ∈ g.family)
    (same : x.id = y.id) : x = y := by
  obtain ⟨_, stands⟩ := exists_sits g x hx
  obtain ⟨_, stands'⟩ := exists_sits g y hy
  exact (stands.unique ids stands' same).2

/-- Where ids differ, the root is not among the children of a group. -/
theorem root_ne_child {g x c : Group} (ids : g.ids.Nodup) (hx : x ∈ g.family) (hc : c ∈ x.groups) :
    c.id ≠ g.id := by
  obtain ⟨n, stands⟩ := exists_sits g x hx
  intro same
  obtain ⟨deeper, -⟩ := (Sits.here g).unique ids (stands.trans (.inside hc (.here c))) same.symm
  omega

/-- No group stands inside as many others as the height counts. -/
theorem height_le_of_sits (g : Group) : ∀ m, (∀ n x, Sits n x g → n < m) → g.height ≤ m := by
  induction g using induct with
  | step g ih =>
    intro m all
    have own := all 0 g (.here g)
    obtain ⟨m, rfl⟩ := Nat.exists_eq_add_of_lt own
    rw [Nat.zero_add, height_le_iff]
    intro c hc
    apply ih c hc
    intro n x h
    have deeper := all (n + 1) x (.inside hc h)
    omega

/-- Some group stands as deep as the outline is high. -/
theorem exists_sits_height (g : Group) : ∃ n x, Sits n x g ∧ g.height = n + 1 := by
  by_contra none
  have lower : g.height ≤ g.height - 1 := by
    apply height_le_of_sits
    intro n x h
    have reach := h.height_le
    have pos := x.height_pos
    have other : g.height ≠ n + 1 := fun same => none ⟨n, x, h, same⟩
    omega
  have pos := g.height_pos
  omega

/-! ## Depths -/

theorem depthAll?_eq (id : NodeId) (gs : List Group) :
    depthAll? id gs = gs.findSome? (depth? id) := by
  induction gs with
  | nil => rfl
  | cons g rest ih =>
    rw [depthAll?, List.findSome?_cons, ih]
    cases depth? id g <;> rfl

theorem depth?_eq (id : NodeId) (g : Group) : g.depth? id =
    if g.id = id then some 1 else (g.groups.findSome? (depth? id)).map (· + 1) := by
  obtain ⟨own, j, cs, gs, order⟩ := g
  rw [depth?, depthAll?_eq]

/-- The depth that is found is that of a group with the id. -/
theorem sits_of_depth? {id : NodeId} (g : Group) :
    ∀ d, g.depth? id = some d → ∃ n x, d = n + 1 ∧ Sits n x g ∧ x.id = id := by
  induction g using induct with
  | step g ih =>
    intro d h
    rw [depth?_eq] at h
    split at h
    · rename_i same
      obtain rfl := Option.some.inj h
      exact ⟨0, g, rfl, .here g, same⟩
    · obtain ⟨d, found, rfl⟩ := Option.map_eq_some_iff.1 h
      obtain ⟨c, hc, found⟩ := List.exists_of_findSome?_eq_some found
      obtain ⟨n, x, rfl, hx, same⟩ := ih c hc d found
      exact ⟨n + 1, x, rfl, .inside hc hx, same⟩

/-- For the id of a group some depth is found. -/
theorem Sits.depth?_ne_none {n : Nat} {x g : Group} (h : Sits n x g) : g.depth? x.id ≠ none := by
  induction h with
  | here g => simp [depth?_eq]
  | @inside n x c g hc _ ih =>
    rw [depth?_eq]
    split
    · simp
    · intro none
      rw [Option.map_eq_none_iff, List.findSome?_eq_none_iff] at none
      exact ih (none c hc)

theorem exists_depth?_iff {g : Group} {id : NodeId} :
    (∃ d, g.depth? id = some d) ↔ ∃ x ∈ g.family, x.id = id := by
  constructor
  · rintro ⟨d, found⟩
    obtain ⟨n, x, -, stands, same⟩ := sits_of_depth? g d found
    exact ⟨x, stands.mem, same⟩
  · rintro ⟨x, hx, rfl⟩
    obtain ⟨n, stands⟩ := exists_sits g x hx
    exact Option.ne_none_iff_exists'.1 stands.depth?_ne_none

/-- Where ids differ, the depth of a group is found by its id. -/
theorem Sits.depth? {n : Nat} {x g : Group} (h : Sits n x g) (ids : g.ids.Nodup) :
    g.depth? x.id = some (n + 1) := by
  obtain ⟨d, found⟩ := Option.ne_none_iff_exists'.1 h.depth?_ne_none
  obtain ⟨m, y, rfl, hy, same⟩ := sits_of_depth? g d found
  obtain ⟨rfl, -⟩ := h.unique ids hy same.symm
  exact found

/-! ## Replacing one group -/

/-- The groups of a changed outline stand where they stood, or in the replacing group. -/
theorem Replaced.sits {x x' g g' : Group} (r : Replaced x x' g g') :
    ∃ d, Sits d x g ∧ ∀ n y, Sits n y g' →
      (∃ y', Sits n y' g ∧ y'.id = y.id) ∨ ∃ k, n = d + k ∧ Sits k y x' := by
  induction r with
  | here => exact ⟨0, .here x, fun n y h => .inr ⟨n, (Nat.zero_add n).symm, h⟩⟩
  | @inside c c' id j cs before rest order r ih =>
    obtain ⟨d, stands, cases⟩ := ih
    refine ⟨d + 1, .inside (by simp) stands, ?_⟩
    intro n y h
    cases h with
    -- the groups around the replaced one change below, but keep their ids
    | here => exact .inl ⟨_, .here _, rfl⟩
    | @inside n _ b _ hb h =>
      have hb : b ∈ before ∨ b = c' ∨ b ∈ rest := by simpa using hb
      obtain hb | rfl | hb := hb
      · exact .inl ⟨y, .inside (by simp [hb]) h, rfl⟩
      · obtain ⟨y', old, same⟩ | ⟨k, rfl, new⟩ := cases n y h
        · exact .inl ⟨y', .inside (by simp) old, same⟩
        · exact .inr ⟨k, by omega, new⟩
      · exact .inl ⟨y, .inside (by simp [hb]) h, rfl⟩

/-- The height is that of the rest or comes from the replacing group. -/
theorem Replaced.height_le {x x' g g' : Group} (r : Replaced x x' g g') :
    ∃ d, Sits d x g ∧ g'.height ≤ max g.height (d + x'.height) := by
  obtain ⟨d, stands, cases⟩ := r.sits
  refine ⟨d, stands, height_le_of_sits g' _ ?_⟩
  intro n y h
  have pos := y.height_pos
  obtain ⟨y', old, -⟩ | ⟨k, rfl, new⟩ := cases n y h
  · have reach := old.height_le
    have pos := y'.height_pos
    omega
  · have reach := new.height_le
    omega

/-- A group that keeps its subgroups leaves the height as it is. -/
theorem Replaced.height_le_of_groups {x x' g g' : Group} (r : Replaced x x' g g')
    (same : x'.groups = x.groups) : g'.height ≤ g.height := by
  obtain ⟨d, stands, bound⟩ := r.height_le
  have reach := stands.height_le
  rw [height_congr same] at bound
  omega

/-! ## Inserting and detaching -/

theorem height_insertChild (item : Item) (index : Option Nat) (g : Group) :
    (insertChild item index g).height ≤ max g.height (item.height + 1) := by
  have pos := g.height_pos
  obtain ⟨m, bound⟩ : ∃ m, max g.height (item.height + 1) = m + 1 :=
    Nat.exists_eq_succ_of_ne_zero (by omega)
  have old : ∀ x ∈ g.groups, x.height ≤ m := height_le_iff.1 (by omega)
  rw [bound, height_le_iff]
  intro x hx
  cases item with
  | condition c => exact old x hx
  | group h =>
    have hx : x ∈ g.groups ∨ x = h := by simpa [insertChild] using hx
    obtain hx | rfl := hx
    · exact old x hx
    · simp only [Item.height] at bound
      omega

section
variable {kind : Kind} {id origin : NodeId} {item : Item} {index : Option Nat} {g g' : Group}

/-- Where a node was put in, the groups stand where they stood, or are groups of the node. -/
theorem sits_of_insert (h : g.modifyGroup id (insertChild item index) = some g') {n : Nat}
    {y : Group} (hy : Sits n y g') : y ∈ item.family ∨ ∃ y', Sits n y' g ∧ y'.id = y.id := by
  obtain ⟨x, -, r⟩ := modifyGroup_replaced h
  obtain ⟨d, stands, cases⟩ := r.sits
  obtain old | ⟨k, rfl, new⟩ := cases n y hy
  · exact .inr old
  · cases new with
    | here => exact .inr ⟨x, stands, (insertChild_id item index x).symm⟩
    | @inside k _ c _ hc inner =>
      cases item with
      | condition leaf => exact .inr ⟨y, stands.trans (.inside hc inner), rfl⟩
      | group z =>
        have hc : c ∈ x.groups ∨ c = z := by simpa [insertChild] using hc
        obtain held | rfl := hc
        · exact .inr ⟨y, stands.trans (.inside held inner), rfl⟩
        · exact .inl inner.mem

/-- A node that is put into a group reaches below it as far as it is high. -/
theorem insert_height (h : g.modifyGroup id (insertChild item index) = some g') :
    ∃ n x, Sits n x g ∧ x.id = id ∧ g'.height ≤ max g.height (n + 1 + item.height) := by
  obtain ⟨x, same, r⟩ := modifyGroup_replaced h
  obtain ⟨n, stands, bound⟩ := r.height_le
  refine ⟨n, x, stands, same, ?_⟩
  have inside := height_insertChild item index x
  have reach := stands.height_le
  omega

theorem insert_condition_height {c : Condition}
    (h : g.modifyGroup id (insertChild (.condition c) index) = some g') :
    g'.height ≤ g.height := by
  obtain ⟨n, x, stands, -, bound⟩ := insert_height h
  have reach := stands.height_le
  have pos := x.height_pos
  simp only [Item.height] at bound
  omega

theorem rejoin_height {j : Junction}
    (h : g.modifyGroup id (fun x => { x with junction := j }) = some g') :
    g'.height ≤ g.height := by
  obtain ⟨x, -, r⟩ := modifyGroup_replaced h
  exact r.height_le_of_groups rfl

theorem modifyCondition_height {f : Condition → Condition}
    (h : g.modifyCondition id f = some g') : g'.height ≤ g.height := by
  obtain ⟨x, before, c, rest, split, -, r⟩ := modifyCondition_replaced h
  exact r.height_le_of_groups rfl

/-- The groups that are left stand where they stood. -/
theorem sits_of_detach (h : g.detach kind id = some (g', origin, item)) {n : Nat} {y : Group}
    (hy : Sits n y g') : ∃ y', Sits n y' g ∧ y'.id = y.id := by
  obtain ⟨x, x', detached, -, r⟩ := detach_replaced h
  obtain ⟨d, stands, cases⟩ := r.sits
  obtain old | ⟨k, rfl, new⟩ := cases n y hy
  · exact old
  · cases new with
    | here => exact ⟨x, stands, (detachChild_id detached).symm⟩
    | @inside k _ c _ hc inner =>
      have held : c ∈ x.groups := by
        obtain ⟨-, ⟨_, _, _, -, -, rfl⟩ | ⟨_, _, _, -, split, rfl⟩⟩ := detachChild_split detached
        · exact hc
        · rw [split]
          exact List.mem_append.2 ((List.mem_append.1 hc).imp_right (List.mem_cons_of_mem _))
      exact ⟨y, stands.trans (.inside held inner), rfl⟩

theorem detach_height (h : g.detach kind id = some (g', origin, item)) :
    g'.height ≤ g.height := by
  apply height_le_of_sits
  intro n y hy
  obtain ⟨y', old, -⟩ := sits_of_detach h hy
  have reach := old.height_le
  have pos := y'.height_pos
  omega

/-- A condition that is taken out and put into a group makes the outline no higher. -/
theorem move_condition_height {target : NodeId} {rest : Group}
    (h : g.detach .condition id = some (rest, origin, item))
    (h' : rest.modifyGroup target (insertChild item index) = some g') : g'.height ≤ g.height := by
  cases item with
  | group x => cases congrArg ChildRef.kind (detach_ref h)
  | condition c => exact Nat.le_trans (insert_condition_height h') (detach_height h)

/-- A group that was taken out stood in the outline. -/
theorem mem_of_detach {x : Group} (h : g.detach kind id = some (g', origin, .group x)) :
    x ∈ g.family ∧ x.id = id :=
  ⟨detach_family h (mem_family_self x), congrArg ChildRef.id (detach_ref h)⟩

end

theorem height_ofItems {id : NodeId} {j : Junction} {is : List Item} {n : Nat} :
    (ofItems id j is).height ≤ n + 1 ↔ ∀ i ∈ is, i.height ≤ n := by
  rw [height_le_iff]
  constructor
  · intro all i hi
    cases i with
    | condition c => exact Nat.zero_le n
    | group g => exact all g (List.mem_filterMap.2 ⟨.group g, hi, rfl⟩)
  · intro all g hg
    obtain ⟨i, hi, he⟩ := List.mem_filterMap.1 hg
    cases i with
    | condition c => cases he
    | group x =>
      obtain rfl := Option.some.inj he
      exact all (.group x) hi

end Group

end FieldFilter
