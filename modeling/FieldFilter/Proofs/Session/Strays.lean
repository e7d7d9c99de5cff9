import FieldFilter.Proofs.Session.Drops

/-!
# Drops over nodes that are gone

The view can be behind the outline and report a drop over a node that is no longer there. Over a
group that is gone nothing happens. Over a condition that is gone the item moves into the group that
the condition is said to stand in, if it can, and comes last there (`drop_stray`). Only the id of
the condition is looked for among the children of this group; if a group has it, the item goes
beside that one.
-/

namespace FieldFilter

open FieldFilter.Group FieldFilter.Drop

/-- Beside an anchor that is not there, the entry comes last. -/
theorem Placed.eq_last {r : ChildRef} {anchor : NodeId} {side : Side} {order order' : List ChildRef}
    (h : Placed r (some anchor) side order order') (absent : ∀ a ∈ order, a.id ≠ anchor) :
    order' = order ++ [r] := by
  cases h with
  | before | after => exact absurd rfl (absent _ (by simp))
  | unanchored => rfl

namespace Session

section
variable {s : Session} {drop : Drop} {target : Touched}

/-- Where a drop over a node that is gone is shown: if the node is said to be a condition, beside it
in the group that is reported. -/
theorem shown_stray_iff {root : Group} {d : Destination} (named : drop.target = some target)
    (gone : ¬ root.Has target.kind target.id) : drop.Shown root d ↔
      target.kind = .condition ∧ target.id ≠ drop.dragged.id ∧
        d = ⟨target.group, some target.id, sideOf (drop.level target) target.rect⟩ := by
  constructor
  · intro h
    cases h with
    | beside named' other condition =>
      obtain rfl := Option.some.inj (named'.symm.trans named)
      exact ⟨condition, other, rfl⟩
    | inside named' _ group hg same =>
      obtain rfl := Option.some.inj (named'.symm.trans named)
      exact absurd ⟨_, hg, same⟩ (group ▸ gone)
  · rintro ⟨condition, other, rfl⟩
    exact .beside named other condition

end

/-- In every reachable session, a drop over a node that is not in the outline succeeds exactly if
the node is said to be a condition other than the dragged item, and the item can move into the group
that is reported with it; the rectangles and the touched items have no say in this. If it fails
nothing changes. If it succeeds the item is moved into that group, and last there unless one of its
children has the id. -/
theorem drop_stray {s : Session} (h : Reachable s) {drop : Drop} {target : Touched}
    (named : drop.target = some target) (gone : ¬ s.root.Has target.kind target.id) :
    ((s.perform (.drop drop)).result = .flag true ↔
        target.kind = .condition ∧ target.id ≠ drop.dragged.id ∧
          s.Admits drop.dragged.kind drop.dragged.id target.group) ∧
      ((s.perform (.drop drop)).result ≠ .flag true →
        (s.perform (.drop drop)).Gives (.flag false) s) ∧
      ((s.perform (.drop drop)).result = .flag true →
        Moved s.root (s.perform (.drop drop)).session.root drop.dragged.kind drop.dragged.id
          ⟨target.group, some target.id, sideOf (drop.level target) target.rect⟩ ∧
        ∀ x ∈ s.root.family, ∀ x' ∈ (s.perform (.drop drop)).session.root.family, x'.id = x.id →
          x.id = target.group → (∀ r ∈ x.order, r.id ≠ target.id) →
          x'.order = x.order.filter (· ≠ ⟨drop.dragged.kind, drop.dragged.id⟩) ++
            [⟨drop.dragged.kind, drop.dragged.id⟩]) := by
  obtain ⟨impossible, refused⟩ |
      ⟨d, rest, origin, item, g, shown, admits, detached, inserted, done⟩ :=
    drop_shown_cases h.sound drop
  · simp only [refused.result, Reply.flag.injEq, Bool.false_eq_true, false_iff, false_implies,
      and_true, ne_eq]
    refine ⟨?_, fun _ => refused⟩
    rintro ⟨condition, other, admits⟩
    exact impossible _ ((shown_stray_iff named gone).2 ⟨condition, other, rfl⟩) admits
  · obtain ⟨condition, other, rfl⟩ := (shown_stray_iff named gone).1 shown
    have moved := moved_of_detach h.sound.intact detached inserted
    rw [done.result, done.session, revalidate_session]
    refine ⟨iff_of_true rfl ⟨condition, other, admits⟩, fun fails => absurd rfl fails, fun _ =>
      ⟨moved, fun x hx x' hx' same into absent => ?_⟩⟩
    exact (moved.target x hx x' hx' same into).eq_last fun r hr =>
      absent r (List.mem_of_mem_filter hr)

/-- The condition `2` is dropped over a condition `9` that is said to stand in the group `3`. -/
def stray : Drop where
  dragged := ⟨2, .condition, 1⟩
  rect := none
  target := some ⟨9, .condition, 3, ⟨80, 0, 300, 40⟩⟩
  touched := []

theorem gone_stray : ¬ mixed.root.Has .condition 9 := by
  rw [← contains_iff]
  decide

/-- The condition `2` is in the group `3` then. -/
theorem drop_stray_mixed : Reachable mixed ∧ ¬ mixed.root.Has .condition 9 ∧
    (mixed.perform (.drop stray)).result = .flag true ∧
    ∃ x ∈ (mixed.perform (.drop stray)).session.root.family, x.id = 3 ∧
      x.order = [⟨.condition, 2⟩] := by
  have admits : mixed.Admits .condition 2 3 := (obstacle?_eq_none_iff reachable_mixed.sound).1 rfl
  have named : stray.target = some ⟨9, .condition, 3, ⟨80, 0, 300, 40⟩⟩ := rfl
  obtain ⟨succeeds, -, lands⟩ := drop_stray reachable_mixed named gone_stray
  have result := succeeds.2 ⟨rfl, by decide, admits⟩
  obtain ⟨moved, last⟩ := lands result
  have held : Group.empty 3 .any ∈ mixed.root.groups := List.mem_singleton.2 rfl
  have hx := mem_family_of_mem held
  obtain ⟨x, hx', same⟩ := (moved.has (k := .group)).2 ⟨_, hx, rfl⟩
  exact ⟨reachable_mixed, gone_stray, result, x, hx', same, last _ hx x hx' same rfl nofun⟩

/-- Drops over conditions that are gone are not ignored. -/
theorem stray_not_ignored : ¬ ∀ s, Reachable s → ∀ drop target, drop.target = some target →
    ¬ s.root.Has target.kind target.id →
    (s.perform (.drop drop)).result = .flag false ∧
      (s.perform (.drop drop)).session.root = s.root := by
  intro claim
  have ignored := (claim mixed reachable_mixed stray _ rfl gone_stray).1
  have moves : (mixed.perform (.drop stray)).result = .flag true := by decide
  cases ignored.symm.trans moves

end Session

end FieldFilter
