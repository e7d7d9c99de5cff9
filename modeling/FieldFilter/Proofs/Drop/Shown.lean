import FieldFilter.Drop.Basic
import FieldFilter.Proofs.Outline.Lookup

/-!
# Where drops are shown to land

`drop.Shown root d` says where the drop is shown to land in the outline: over a condition beside it,
over a group as the items that it touches among the group's children have it (`Among`). What
`resolve` decides is where the drop is shown to land (`shown_of_resolve`). An anchor of it is a
child of the group, and not the item itself (`Shown.anchor`).
-/

namespace FieldFilter.Drop

open FieldFilter.Group

/-- The height of the dragged item: the middle of its own rectangle, or else of the target's. -/
def level (drop : Drop) (target : Touched) : Float := (drop.rect.getD target.rect).middle

/-- The children of a group, without the dragged item and the group itself, that the dragged item
touches while they are shown in the group. -/
def beneath (drop : Drop) (g : Group) : List Touched :=
  drop.touched.filter fun t =>
    t.group = g.id ∧ t.id ≠ drop.dragged.id ∧ t.id ≠ g.id ∧ ∃ r ∈ g.order, r.id = t.id

/-- Where a drop over a group lands: without touching a child at the start or the end of the group,
touching one beside it, touching two after the first of them, and touching more at the end. -/
inductive Among (drop : Drop) (target : Touched) (g : Group) : Destination → Prop
  | none : drop.beneath g = [] →
      Among drop target g ⟨target.id, none, sideOf (drop.level target) target.rect⟩
  | one {only : Touched} : drop.beneath g = [only] →
      Among drop target g ⟨target.id, some only.id, sideOf (drop.level target) only.rect⟩
  | two {first second : Touched} {i j : Nat} : (drop.beneath g).Perm [first, second] →
      g.position? first.id = some i → g.position? second.id = some j → i ≤ j →
      Among drop target g ⟨target.id, some first.id, .after⟩
  | more : 2 < (drop.beneath g).length → Among drop target g ⟨target.id, none, .after⟩

/-- Where a drop lands in an outline, if it is not over the dragged item. -/
inductive Shown (drop : Drop) (root : Group) : Destination → Prop
  | beside {target : Touched} : drop.target = some target → target.id ≠ drop.dragged.id →
      target.kind = .condition →
      Shown drop root
        ⟨target.group, some target.id, sideOf (drop.level target) target.rect⟩
  | inside {target : Touched} {g : Group} {d : Destination} : drop.target = some target →
      target.id ≠ drop.dragged.id → target.kind = .group → g ∈ root.family → g.id = target.id →
      Among drop target g d → Shown drop root d

section
variable {drop : Drop} {target : Touched} {g root : Group} {d : Destination}

/-! ## Candidates -/

/-- The candidates are the children beneath the dragged item, each with its place. -/
theorem candidates_perm (drop : Drop) (g : Group) :
    ((drop.candidates g).map Prod.snd).Perm (drop.beneath g) := by
  have own : (fun t : Touched => ((g.position? t.id).map fun i => (i, t)).map Prod.snd) =
      Option.guard fun t => (g.position? t.id).isSome := by
    funext t
    cases place : g.position? t.id <;> simp [Option.guard, place]
  refine ((List.mergeSort_perm _ _).map Prod.snd).trans (.of_eq ?_)
  rw [List.map_filterMap, own, List.filterMap_eq_filter, List.filter_filter, beneath]
  refine List.filter_congr fun t _ => Bool.eq_iff_iff.2 ?_
  simp only [Bool.and_eq_true, decide_eq_true_eq, position?_isSome]
  tauto

theorem candidates_place {c : Nat × Touched} (hc : c ∈ drop.candidates g) :
    g.position? c.2.id = some c.1 := by
  unfold candidates at hc
  rw [List.mem_mergeSort] at hc
  obtain ⟨t, -, placed⟩ := List.mem_filterMap.1 hc
  obtain ⟨i, place, rfl⟩ := Option.map_eq_some_iff.1 placed
  exact place

theorem candidates_ascending (drop : Drop) (g : Group) :
    (drop.candidates g).Pairwise fun a b => a.1 ≤ b.1 := by
  unfold candidates
  refine (List.pairwise_mergeSort (fun a b c hab hbc => ?_) (fun a b => ?_) _).imp fun h => ?_
  · simp only [decide_eq_true_eq] at hab hbc ⊢
    exact Nat.le_trans hab hbc
  · simpa using Nat.le_total a.1 b.1
  · simpa using h

theorem among_destination (drop : Drop) (target : Touched) (g : Group) :
    Among drop target g (destinationAmong (drop.level target) target (drop.candidates g)) := by
  have perm := candidates_perm drop g
  have places : ∀ c ∈ drop.candidates g, g.position? c.2.id = some c.1 :=
    fun _ hc => candidates_place hc
  have ascending := candidates_ascending drop g
  generalize drop.candidates g = cs at perm places ascending
  match cs with
  | [] => exact .none perm.symm.eq_nil
  | [a] => exact .one (List.perm_singleton.1 perm.symm)
  | [a, b] =>
    have ordered : a.1 ≤ b.1 := by simpa using ascending
    exact .two perm.symm (places a (by simp)) (places b (by simp)) ordered
  | a :: b :: c :: rest =>
    refine .more ?_
    rw [← perm.length_eq]
    simp

/-! ## Decisions -/

theorem shown_of_resolve (h : (drop.resolve root).1 = some d) : drop.Shown root d := by
  unfold resolve at h
  split at h
  · cases h
  · rename_i target named
    split at h
    · cases h
    · rename_i other
      dsimp only at h
      split at h
      · rename_i condition
        obtain rfl := Option.some.inj h
        exact .beside named other condition
      · rename_i group
        split at h
        · cases h
        · rename_i g found
          obtain rfl := Option.some.inj h
          obtain ⟨hg, same⟩ := findGroup?_eq_some found
          exact .inside named other group hg same (among_destination drop target g)

theorem Among.group (h : Among drop target g d) : d.group = target.id := by
  cases h <;> rfl

/-- An anchor among the children of a group is one of them. -/
theorem Among.anchor (h : Among drop target g d) {a : NodeId} (anchored : d.anchor = some a) :
    (∃ r ∈ g.order, r.id = a) ∧ a ≠ drop.dragged.id := by
  have held {t : Touched} (ht : t ∈ drop.beneath g) :
      (∃ r ∈ g.order, r.id = t.id) ∧ t.id ≠ drop.dragged.id := by
    obtain ⟨-, own⟩ := List.mem_filter.1 ht
    obtain ⟨-, other, -, child⟩ := of_decide_eq_true own
    exact ⟨child, other⟩
  cases h with
  | none => cases anchored
  | one only =>
    obtain rfl := Option.some.inj anchored
    exact held (by simp [only])
  | two pair =>
    obtain rfl := Option.some.inj anchored
    exact held (pair.mem_iff.2 (by simp))
  | more => cases anchored

/-- The dragged item is not its own anchor. -/
theorem Shown.anchor_ne (h : drop.Shown root d) : d.anchor ≠ some drop.dragged.id := by
  cases h with
  | beside _ other => exact fun same => other (Option.some.inj same)
  | inside _ _ _ _ _ among => exact fun anchored => (among.anchor anchored).2 rfl

end

end FieldFilter.Drop
