import FieldFilter.Proofs.Outline.Resting
import FieldFilter.Proofs.Session.Drops

/-!
# Drops that change nothing

A drop answers whether the move to where it is shown is admitted. That is not whether the outline
changes: an item that is dropped where it rests is moved to its own place (`drop_home`). Apart from
that the answer is right (`drop_changes_iff`).
-/

namespace FieldFilter.Session

open FieldFilter.Group FieldFilter.Drop

/-- In every reachable session, a drop answers whether the item can move to where the drop is shown,
and the outline changes exactly if it answers so and the item does not rest there. -/
theorem drop_changes_iff {s : Session} (h : Reachable s) (drop : Drop) :
    ((s.perform (.drop drop)).result = .flag true ↔
        ∃ d, drop.Shown s.root d ∧ s.Admits drop.dragged.kind drop.dragged.id d.group) ∧
      ((s.perform (.drop drop)).session.root ≠ s.root ↔
        (s.perform (.drop drop)).result = .flag true ∧
          ¬ ∃ d, drop.Shown s.root d ∧ s.root.Rests drop.dragged.kind drop.dragged.id d) := by
  obtain ⟨impossible, refused⟩ |
      ⟨d, rest, origin, item, g, shown, admits, detached, inserted, moved⟩ :=
    drop_shown_cases h.sound drop
  · rw [refused.result, refused.session]
    refine ⟨iff_of_false nofun ?_, iff_of_false (fun differ => differ rfl) nofun⟩
    rintro ⟨d, shown, admits⟩
    exact impossible d shown admits
  · rw [moved.result, moved.session, revalidate_session]
    refine ⟨iff_of_true rfl ⟨d, shown, admits⟩, ?_⟩
    rw [ne_eq, rests_iff h.sound.intact detached inserted, eq_self_iff_true, true_and]
    refine not_congr ⟨fun rests => ⟨d, shown, rests⟩, ?_⟩
    rintro ⟨d', shown', rests⟩
    obtain rfl := shown.unique h.sound.intact.unique shown'
    exact rests

/-- The group `3` is dropped over the root, where it touches the conditions around it. -/
def home : Drop where
  dragged := ⟨3, .group, 1⟩
  rect := none
  target := some ⟨1, .group, 1, ⟨0, 0, 300, 120⟩⟩
  touched := [⟨2, .condition, 1, ⟨0, 0, 300, 40⟩⟩, ⟨4, .condition, 1, ⟨80, 0, 300, 40⟩⟩]

theorem shown_home : home.Shown mixed.root ⟨1, some 2, .after⟩ := by
  have pair : (home.beneath mixed.root).Perm [_, _] := .refl _
  have among : Among home ⟨1, .group, 1, ⟨0, 0, 300, 120⟩⟩ mixed.root _ :=
    .two (i := 0) (j := 2) pair rfl rfl (by decide)
  exact .inside rfl (by decide) rfl (mem_family_self _) rfl among

theorem rests_home : mixed.root.Rests .group 3 ⟨1, some 2, .after⟩ := by
  have order : mixed.root.order = [⟨.condition, 2⟩, ⟨.group, 3⟩, ⟨.condition, 4⟩] := by decide
  refine ⟨mixed.root, mem_family_self _, rfl, by decide, ?_⟩
  rw [order]
  exact @Placed.after ⟨.group, 3⟩ ⟨.condition, 2⟩ [] [⟨.condition, 4⟩]

/-- The group is moved to its own place. -/
theorem drop_changes_iff_mixed : Reachable mixed ∧
    (mixed.perform (.drop home)).result = .flag true ∧
    (mixed.perform (.drop home)).session.root = mixed.root := by
  have admits : mixed.Admits .group 3 1 := (obstacle?_eq_none_iff reachable_mixed.sound).1 rfl
  obtain ⟨answer, changes⟩ := drop_changes_iff reachable_mixed home
  refine ⟨reachable_mixed, answer.2 ⟨_, shown_home, admits⟩, of_not_not fun changed => ?_⟩
  exact (changes.1 changed).2 ⟨_, shown_home, rests_home⟩

/-- The answer is not whether the outline changed. -/
theorem drop_home : ¬ ∀ s, Reachable s → ∀ drop,
    ((s.perform (.drop drop)).result = .flag true ↔
      (s.perform (.drop drop)).session.root ≠ s.root) := by
  intro claim
  have gives := (drop_eq mixed home).map Reply.flag
  rw [(resolve_iff reachable_mixed.sound.intact.unique).2 shown_home] at gives
  have moved : (mixed.perform (.drop home)).result = .flag true := gives.result.trans (by decide)
  have session : (mixed.perform (.drop home)).session = _ := gives.session
  refine (claim mixed reachable_mixed home).1 moved ?_
  rw [session]
  rfl

end FieldFilter.Session
