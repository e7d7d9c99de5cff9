import FieldFilter.Outline.Search
import Mathlib.Data.List.Perm.Basic

/-!
# Outlines as collections of nodes

A group is also the list of the groups in it, and with them of their ids and conditions:

* `family`, `ids`, `leaves`: the groups at and below a group, the ids of all nodes, all conditions;
* `mem_of_search`, `search_ne_none`: every look-up answers for one of the groups, if it can for any;
* `Replaced h h' g g'`: `g'` is `g` with `h'` in the place of one of its groups, `h`;
* `alter_replaced`: every change below the root is such a replacement of a group that the change
  itself can be made to;
* `Replaced.gathered`: whatever is gathered from the groups one by one is the same before and after,
  but for what `h` and `h'` give.
-/

namespace FieldFilter.Group

variable {α β : Type}

/-- Induction on a group by way of its subgroups. -/
theorem induct {P : Group → Prop} (step : ∀ g : Group, (∀ h ∈ g.groups, P h) → P g) :
    ∀ g, P g
  | ⟨id, j, cs, gs, order⟩ => step ⟨id, j, cs, gs, order⟩ fun h hm =>
    have : sizeOf h < sizeOf gs := List.sizeOf_lt_of_mem hm
    induct step h
termination_by g => sizeOf g
decreasing_by simp only [Group.mk.sizeOf_spec]; omega

mutual

/-- A group and all groups below it. -/
def family : Group → List Group
  | ⟨id, junction, conditions, groups, order⟩ =>
    ⟨id, junction, conditions, groups, order⟩ :: familyOfAll groups

def familyOfAll : List Group → List Group
  | [] => []
  | g :: rest => g.family ++ familyOfAll rest

end

theorem familyOfAll_eq (gs : List Group) : familyOfAll gs = gs.flatMap family := by
  induction gs with
  | nil => rfl
  | cons g rest ih => simp only [familyOfAll, ih, List.flatMap_cons]

theorem family_eq (g : Group) : g.family = g :: g.groups.flatMap family := by
  obtain ⟨id, j, cs, gs, order⟩ := g
  simp only [family, familyOfAll_eq]

theorem mem_family_self (g : Group) : g ∈ g.family := by
  rw [family_eq]
  exact List.mem_cons_self

theorem mem_family_iff {g h : Group} : h ∈ g.family ↔ h = g ∨ ∃ c ∈ g.groups, h ∈ c.family := by
  rw [family_eq, List.mem_cons, List.mem_flatMap]

theorem mem_family_of_mem {g h : Group} (hm : h ∈ g.groups) : h ∈ g.family :=
  mem_family_iff.2 (.inr ⟨h, hm, mem_family_self h⟩)

theorem mem_family_trans {g h x : Group} (hx : x ∈ h.family) (hm : h ∈ g.family) :
    x ∈ g.family := by
  induction g using induct with
  | step g ih =>
    obtain rfl | ⟨c, hc, hm⟩ := mem_family_iff.1 hm
    · exact hx
    · exact mem_family_iff.2 (.inr ⟨c, hc, ih c hc hm⟩)

/-- What `f` gathers from the groups of an outline comes from the root and from its subgroups. -/
theorem gather_eq (f : Group → List α) (g : Group) :
    g.family.flatMap f = f g ++ g.groups.flatMap fun h => h.family.flatMap f := by
  rw [family_eq, List.flatMap_cons, List.flatMap_assoc]

/-- The ids of a group and of its conditions. -/
def ownIds (g : Group) : List NodeId := g.id :: g.conditions.map Condition.id

/-- The ids of all nodes of an outline. -/
def ids (g : Group) : List NodeId := g.family.flatMap ownIds

/-- All conditions of an outline. -/
def leaves (g : Group) : List Condition := g.family.flatMap conditions

theorem ids_eq (g : Group) : g.ids = g.ownIds ++ g.groups.flatMap ids := gather_eq ownIds g

theorem leaves_eq (g : Group) : g.leaves = g.conditions ++ g.groups.flatMap leaves :=
  gather_eq conditions g

theorem mem_leaves_of_mem {g h : Group} (hm : h ∈ g.family) {c : Condition}
    (hc : c ∈ h.conditions) : c ∈ g.leaves :=
  List.mem_flatMap.2 ⟨h, hm, hc⟩

theorem id_mem_ids (g : Group) : g.id ∈ g.ids := by
  rw [ids_eq]
  exact List.mem_append_left _ List.mem_cons_self

/-! ## Searching -/

theorem searchAll_eq (f : Group → Option α) (gs : List Group) :
    searchAll f gs = gs.findSome? (search f) := by
  induction gs with
  | nil => rfl
  | cons g rest ih =>
    rw [searchAll, List.findSome?_cons, ih]
    cases search f g <;> rfl

/-- A search answers for one of the groups. -/
theorem mem_of_search {f : Group → Option α} (g : Group) :
    ∀ a, g.search f = some a → ∃ x ∈ g.family, f x = some a := by
  induction g using induct with
  | step g ih =>
    intro a h
    obtain ⟨id, j, cs, gs, order⟩ := g
    rw [search, searchAll_eq] at h
    split at h
    · rename_i found
      exact ⟨_, mem_family_self _, found.trans h⟩
    · obtain ⟨c, hc, found⟩ := List.exists_of_findSome?_eq_some h
      obtain ⟨x, hx, answer⟩ := ih c hc a found
      exact ⟨x, mem_family_trans hx (mem_family_of_mem hc), answer⟩

/-- A search that has an answer for one of the groups finds one. -/
theorem search_ne_none {f : Group → Option α} {x : Group} (able : f x ≠ none) (g : Group) :
    x ∈ g.family → g.search f ≠ none := by
  induction g using induct with
  | step g ih =>
    intro hx
    obtain ⟨id, j, cs, gs, order⟩ := g
    rw [search, searchAll_eq]
    cases own : f ⟨id, j, cs, gs, order⟩ with
    | some a => simp
    | none =>
      obtain rfl | ⟨c, hc, hx⟩ := mem_family_iff.1 hx
      · exact absurd own able
      · intro nothing
        exact ih c hc hx (List.findSome?_eq_none_iff.1 nothing c hc)

/-- A search for a group finds one that is searched for. -/
theorem mem_of_search_ite {p : Group → Prop} [DecidablePred p] {g x : Group}
    (h : (g.search fun y => if p y then some y else none) = some x) : x ∈ g.family ∧ p x := by
  obtain ⟨y, hy, found⟩ := mem_of_search g x h
  split at found
  · rename_i own
    obtain rfl := Option.some.inj found
    exact ⟨hy, own⟩
  · cases found

theorem findGroup?_eq_some {g x : Group} {id : NodeId} (h : g.findGroup? id = some x) :
    x ∈ g.family ∧ x.id = id :=
  mem_of_search_ite h

/-! ## Replacing one group -/

/-- `g'` is `g` with `h'` in the place of one of its groups, `h`. -/
inductive Replaced (h h' : Group) : Group → Group → Prop
  | here : Replaced h h' h h'
  | inside {c c' : Group} (id : NodeId) (j : Junction) (cs : List Condition)
      (before rest : List Group) (order : List ChildRef) : Replaced h h' c c' →
      Replaced h h' ⟨id, j, cs, before ++ c :: rest, order⟩ ⟨id, j, cs, before ++ c' :: rest, order⟩

theorem alterAll_split {f : Group → Option (Group × α)} {gs gs' : List Group} {a : α}
    (h : alterAll f gs = some (gs', a)) :
    ∃ before c c' rest, gs = before ++ c :: rest ∧ gs' = before ++ c' :: rest ∧
      alter f c = some (c', a) := by
  induction gs generalizing gs' with
  | nil => cases h
  | cons g rest ih =>
    simp only [alterAll] at h
    split at h
    · rename_i c' b found
      obtain ⟨rfl, rfl⟩ : c' :: rest = gs' ∧ b = a := by simpa using h
      exact ⟨[], g, c', rest, rfl, rfl, found⟩
    · split at h
      · rename_i rest' b found
        obtain ⟨rfl, rfl⟩ : g :: rest' = gs' ∧ b = a := by simpa using h
        obtain ⟨before, c, c', after, rfl, rfl, hc⟩ := ih found
        exact ⟨g :: before, c, c', after, rfl, rfl, hc⟩
      · cases h

/-- A change below the root is made to one group, and the rest stays. -/
theorem alter_replaced {f : Group → Option (Group × α)} {g g' : Group} {a : α}
    (h : g.alter f = some (g', a)) : ∃ x x', f x = some (x', a) ∧ Replaced x x' g g' := by
  induction g using induct generalizing g' with
  | step g ih =>
    obtain ⟨id, j, cs, gs, order⟩ := g
    simp only [alter] at h
    split at h
    · rename_i found
      exact ⟨_, g', h ▸ found, .here⟩
    · split at h
      · rename_i gs' b found
        obtain ⟨rfl, rfl⟩ : ⟨id, j, cs, gs', order⟩ = g' ∧ b = a := by simpa using h
        obtain ⟨before, c, c', rest, rfl, rfl, hc⟩ := alterAll_split found
        obtain ⟨x, x', hx, r⟩ := ih c (by simp) hc
        exact ⟨x, x', hx, .inside id j cs before rest order r⟩
      · cases h

theorem alterAll_ne_none {f : Group → Option (Group × α)} {c : Group} {gs : List Group}
    (hc : c ∈ gs) (able : c.alter f ≠ none) : alterAll f gs ≠ none := by
  induction gs with
  | nil => cases hc
  | cons b rest ih =>
    rw [alterAll]
    cases first : b.alter f with
    | some r => simp
    | none =>
      obtain rfl | hc := List.mem_cons.1 hc
      · exact absurd first able
      · obtain ⟨r, others⟩ := Option.ne_none_iff_exists'.1 (ih hc)
        simp [others]

/-- A change that can be made to one of the groups is made. -/
theorem alter_ne_none {f : Group → Option (Group × α)} {x : Group} (able : f x ≠ none)
    (g : Group) : x ∈ g.family → g.alter f ≠ none := by
  induction g using induct with
  | step g ih =>
    intro hx
    obtain ⟨id, j, cs, gs, order⟩ := g
    rw [alter]
    cases own : f ⟨id, j, cs, gs, order⟩ with
    | some r => simp
    | none =>
      obtain rfl | ⟨c, hc, hx⟩ := mem_family_iff.1 hx
      · exact absurd own able
      · obtain ⟨r, below⟩ := Option.ne_none_iff_exists'.1 (alterAll_ne_none hc (ih c hc hx))
        simp [below]

namespace Replaced

variable {h h' g g' : Group}

theorem mem (r : Replaced h h' g g') : h ∈ g.family := by
  induction r with
  | here => exact mem_family_self h
  | @inside c _ _ _ _ _ _ _ _ ih => exact mem_family_iff.2 (.inr ⟨c, by simp, ih⟩)

theorem id_eq (r : Replaced h h' g g') (same : h'.id = h.id) : g'.id = g.id := by
  cases r with
  | here => exact same
  | inside => rfl

/-- What is gathered from each group, its subgroups aside, changes by what the replaced group
gives. -/
theorem gathered (r : Replaced h h' g g') (f : Group → List α)
    (own : ∀ (x : Group) gs, f { x with groups := gs } = f x) :
    ∃ rest, (g.family.flatMap f).Perm (h.family.flatMap f ++ rest) ∧
      (g'.family.flatMap f).Perm (h'.family.flatMap f ++ rest) := by
  induction r with
  | here => exact ⟨[], by simp, by simp⟩
  | @inside c c' id j cs before after order _ ih =>
    obtain ⟨rest, hc, hc'⟩ := ih
    let front := f ⟨id, j, cs, [], order⟩ ++ before.flatMap fun x => x.family.flatMap f
    let back := after.flatMap fun x => x.family.flatMap f
    have around (x : Group) : (family ⟨id, j, cs, before ++ x :: after, order⟩).flatMap f =
        front ++ (x.family.flatMap f ++ back) := by
      rw [gather_eq, ← own _ []]
      simp only [List.flatMap_append, List.flatMap_cons, List.append_assoc, front, back]
    have pull {x : Group} {given : List α} (hx : (x.family.flatMap f).Perm (given ++ rest)) :
        (front ++ (x.family.flatMap f ++ back)).Perm (given ++ (front ++ (rest ++ back))) := by
      refine ((hx.append_right back).append_left front).trans ?_
      rw [List.append_assoc given]
      exact List.perm_append_comm_assoc ..
    exact ⟨front ++ (rest ++ back), around c ▸ pull hc, around c' ▸ pull hc'⟩

end Replaced

end FieldFilter.Group
