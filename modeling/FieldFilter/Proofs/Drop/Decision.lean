import FieldFilter.Proofs.Drop.Shown
import FieldFilter.Proofs.Outline.Integrity
import FieldFilter.Proofs.Outline.Siblings

/-!
# What is decided on drops

`Among` describes the decision on a drop over a group without sorting. It allows one destination
only (`among_iff`): with two candidates in the same place, which are the same child reported twice,
it makes no difference which of them comes first. So the decision does not depend on the order in
which the touched items are reported (`resolve_perm`), and where ids differ it is the one that is
shown (`resolve_iff`).
-/

namespace FieldFilter.Drop

open FieldFilter.Group

section
variable {drop : Drop} {target : Touched} {g root : Group} {d : Destination}

/-- What has the same place is the same child. -/
theorem id_of_position? {a b : NodeId} {i : Nat} (ha : g.position? a = some i)
    (hb : g.position? b = some i) : a = b := by
  obtain ⟨_, own, -⟩ := List.findIdx?_eq_some_iff_getElem.1 ha
  obtain ⟨_, own', -⟩ := List.findIdx?_eq_some_iff_getElem.1 hb
  exact (eq_of_beq own).symm.trans (eq_of_beq own')

/-- Of two children, the order of the group decides which is the first. -/
theorem first_of_perm {first second a b : Touched} {i j k l : Nat}
    (pair : [a, b].Perm [first, second]) (hi : g.position? first.id = some i)
    (hj : g.position? second.id = some j) (ordered : i ≤ j) (hk : g.position? a.id = some k)
    (hl : g.position? b.id = some l) (ordered' : k ≤ l) : a.id = first.id := by
  have among : a = first ∨ a = second := by simpa using pair.mem_iff.1 List.mem_cons_self
  obtain rfl | rfl := among
  · rfl
  · obtain rfl : b = first := by simpa using (pair.trans (.swap ..)).cons_inv
    obtain rfl := Option.some.inj (hi.symm.trans hl)
    obtain rfl := Option.some.inj (hj.symm.trans hk)
    obtain rfl := Nat.le_antisymm ordered ordered'
    exact id_of_position? hk hl

theorem among_iff : Among drop target g d ↔
    d = destinationAmong (drop.level target) target (drop.candidates g) := by
  refine ⟨fun h => ?_, fun h => h ▸ among_destination drop target g⟩
  have perm := candidates_perm drop g
  have places : ∀ c ∈ drop.candidates g, g.position? c.2.id = some c.1 :=
    fun _ hc => candidates_place hc
  have ascending := candidates_ascending drop g
  generalize drop.candidates g = cs at perm places ascending
  cases h with
  | none empty =>
    obtain rfl := List.map_eq_nil_iff.1 (empty ▸ perm).eq_nil
    rfl
  | one only =>
    obtain ⟨c, rfl, rfl⟩ := List.map_eq_singleton_iff.1 (List.perm_singleton.1 (only ▸ perm))
    rfl
  | two pair hi hj ordered =>
    have length := (perm.trans pair).length_eq
    match cs with
    | [a, b] =>
      have first := first_of_perm (perm.trans pair) hi hj ordered (places a (by simp))
        (places b (by simp)) (by simpa using ascending)
      change _ = Destination.mk target.id (some a.2.id) .after
      rw [first]
  | more many =>
    have length := perm.length_eq
    match cs with
    | a :: b :: c :: rest => rfl
    | [] | [_] | [_, _] =>
      simp only [List.length_map, List.length_cons, List.length_nil] at length
      omega

/-! ## Decisions -/

theorem resolve_inside (named : drop.target = some target) (other : target.id ≠ drop.dragged.id)
    (group : target.kind = .group) (found : root.findGroup? target.id = some g) :
    drop.resolve root =
      (some (destinationAmong (drop.level target) target (drop.candidates g)),
        [.dropResolved target.id (drop.candidates g).length
          (destinationAmong (drop.level target) target (drop.candidates g)).side]) := by
  simp only [resolve, named, if_neg other, group, found, level]

/-- Where ids differ, what is decided on a drop is where it is shown to land. -/
theorem resolve_iff (ids : root.ids.Nodup) :
    (drop.resolve root).1 = some d ↔ drop.Shown root d := by
  refine ⟨shown_of_resolve, fun h => ?_⟩
  cases h with
  | beside named other condition => simp only [resolve, named, if_neg other, condition, level]
  | inside named other group hg same among =>
    rw [resolve_inside named other group (same ▸ findGroup?_of_mem ids hg), among_iff.1 among]

theorem Shown.unique (ids : root.ids.Nodup) {d' : Destination} (h : drop.Shown root d)
    (h' : drop.Shown root d') : d = d' :=
  Option.some.inj (((resolve_iff ids).2 h).symm.trans ((resolve_iff ids).2 h'))

/-! ## The order of the touched items -/

section
variable {touched : List Touched}

theorem beneath_perm (perm : touched.Perm drop.touched) (g : Group) :
    (beneath { drop with touched := touched } g).Perm (drop.beneath g) :=
  perm.filter _

theorem Among.perm (perm : touched.Perm drop.touched)
    (h : Among { drop with touched := touched } target g d) : Among drop target g d := by
  have beneath := beneath_perm perm g
  cases h with
  | none empty => exact .none (empty ▸ beneath).nil_eq.symm
  | one only => exact .one (List.singleton_perm.1 (only ▸ beneath)).symm
  | two pair hi hj ordered => exact .two (beneath.symm.trans pair) hi hj ordered
  | more many => exact .more (beneath.length_eq ▸ many)

end

end

/-- A group with the condition `2`, the group `3` and the condition `4`. -/
def row : Group :=
  ⟨1, .all, [⟨2, "", .equal, none⟩, ⟨4, "", .equal, none⟩], [.empty 3 .any],
    [⟨.condition, 2⟩, ⟨.group, 3⟩, ⟨.condition, 4⟩]⟩

end FieldFilter.Drop
