import FieldFilter.Json.Basic

/-!
# JSON values

Induction on values by way of their elements and members, and what it means for a value to be
proper in terms of those.
-/

namespace FieldFilter.Json

/-- Induction on a value by way of its elements and the values of its members. -/
theorem induct {P : Json → Prop} (null : P .null) (bool : ∀ b, P (.bool b)) (int : ∀ z, P (.int z))
    (real : ∀ x, P (.real x)) (str : ∀ s, P (.str s))
    (arr : ∀ items, (∀ v ∈ items, P v) → P (.arr items))
    (obj : ∀ members, (∀ m ∈ members, P m.2) → P (.obj members)) : ∀ v, P v
  | .null => null
  | .bool b => bool b
  | .int z => int z
  | .real x => real x
  | .str s => str s
  | .arr items => arr items fun v hm =>
    have : sizeOf v < sizeOf items := List.sizeOf_lt_of_mem hm
    induct null bool int real str arr obj v
  | .obj members => obj members fun m hm =>
    have : sizeOf m < sizeOf members := List.sizeOf_lt_of_mem hm
    have : sizeOf m.2 < sizeOf m := by obtain ⟨k, v⟩ := m; simp only [Prod.mk.sizeOf_spec]; omega
    induct null bool int real str arr obj m.2
termination_by v => sizeOf v
decreasing_by all_goals simp only [Json.arr.sizeOf_spec, Json.obj.sizeOf_spec]; omega

/-- Induction on nested arrays: all other values are ends. -/
theorem arrayInduct {P : Json → Prop} (arr : ∀ items, (∀ v ∈ items, P v) → P (.arr items))
    (other : ∀ v, v.isArray = false → P v) (v : Json) : P v := by
  induction v using induct with
  | arr items ih => exact arr items ih
  | null | bool | int | real | str | obj => exact other _ rfl

theorem properAll_iff {vs : List Json} : ProperAll vs ↔ ∀ v ∈ vs, v.Proper := by
  induction vs with
  | nil => simp [ProperAll]
  | cons v rest ih => rw [ProperAll, ih, List.forall_mem_cons]

theorem properMembers_iff {ms : List (String × Json)} :
    ProperMembers ms ↔ ∀ m ∈ ms, m.2.Proper := by
  induction ms with
  | nil => simp [ProperMembers]
  | cons m rest ih => rw [ProperMembers, ih, List.forall_mem_cons]

theorem proper_arr {vs : List Json} : (arr vs).Proper ↔ ∀ v ∈ vs, v.Proper := by
  rw [Proper, properAll_iff]

theorem proper_obj {ms : List (String × Json)} :
    (obj ms).Proper ↔ ms.Pairwise (fun a b => a.1 < b.1) ∧ ∀ m ∈ ms, m.2.Proper := by
  rw [Proper, properMembers_iff]

end FieldFilter.Json
