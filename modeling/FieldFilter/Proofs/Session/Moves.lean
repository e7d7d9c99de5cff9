import FieldFilter.Proofs.Outline.Moves
import FieldFilter.Proofs.Session.Identity

/-!
# Moves

A move succeeds exactly if the node is not its own anchor and the session admits it, and what a
successful move makes of the outline is `Moved` (`move_exact`).
-/

namespace FieldFilter.Session

open FieldFilter.Group

/-- The calls that move a node, and where to. -/
inductive Relocation : Call → Kind → NodeId → Destination → Prop
  | item (kind : Kind) (id reported : NodeId) (d : Destination) :
      Relocation (.moveItem kind id reported d) kind id d
  | conditionBefore (id target anchor : NodeId) :
      Relocation (.moveCondition id target (some anchor)) .condition id
        ⟨target, some anchor, .before⟩
  | conditionLast (id target : NodeId) :
      Relocation (.moveCondition id target none) .condition id ⟨target, none, .after⟩
  | groupBefore (id target anchor : NodeId) :
      Relocation (.moveGroup id target (some anchor)) .group id ⟨target, some anchor, .before⟩
  | groupLast (id target : NodeId) :
      Relocation (.moveGroup id target none) .group id ⟨target, none, .after⟩

/-- All moves give what `relocate` gives. -/
theorem Relocation.gives {c : Call} {kind : Kind} {id : NodeId} {d : Destination}
    (move : Relocation c kind id d) {s : Session} {b : Bool} {t : Session}
    (h : (s.relocate kind id d).Gives b t) : (s.perform c).Gives (.flag b) t := by
  cases move with
  | item => exact (moveItem_gives h).map Reply.flag
  | _ => exact h.map Reply.flag

/-- In every reachable session, a node moves exactly if it is not its own anchor, it and the target
are there and, for a group, it is not the root, the target is neither this group nor below it, and
the preferences let the group nest there. What is below the node moves with it; all orders stay but
for its entry, which goes where the destination says, and no node is lost, added or changed. -/
theorem move_exact {s : Session} (h : Reachable s) {c : Call} {kind : Kind} {id : NodeId}
    {d : Destination} (move : Relocation c kind id d) :
    ((s.perform c).result = .flag true ↔ d.anchor ≠ some id ∧ s.Admits kind id d.group) ∧
      ((s.perform c).result = .flag true →
        Moved s.root (s.perform c).session.root kind id d) := by
  obtain ⟨impossible, refused⟩ |
      ⟨rest, origin, item, g, other, admits, detached, inserted, moved⟩ :=
    relocate_cases h.sound kind id d
  · have result := (move.gives refused).result
    rw [result]
    exact ⟨iff_of_false nofun impossible, nofun⟩
  · obtain ⟨result, session⟩ := move.gives moved
    rw [result, session, revalidate_session]
    exact ⟨iff_of_true rfl ⟨other, admits⟩,
      fun _ => moved_of_detach h.sound.intact detached inserted⟩

/-- The root with the condition `2`, the group `3` and the condition `4`. -/
def mixed : Session := after [adding, .addGroup 1 .any, adding]

theorem reachable_mixed : Reachable mixed :=
  .call adding trivial (.call (.addGroup 1 .any) trivial (.call adding trivial (.start ..)))

/-- The condition `4` moves before the condition `2`, and the condition `2` into the group `3`. -/
theorem move_exact_mixed : Reachable mixed ∧
    (mixed.perform (.moveCondition 4 1 (some 2))).result = .flag true ∧
    Moved mixed.root (mixed.perform (.moveCondition 4 1 (some 2))).session.root .condition 4
      ⟨1, some 2, .before⟩ ∧
    (mixed.perform (.moveCondition 4 1 (some 2))).session.root.order =
      [⟨.condition, 4⟩, ⟨.condition, 2⟩, ⟨.group, 3⟩] ∧
    mixed.Admits .condition 2 3 := by
  have reachable : Reachable mixed :=
    .call adding trivial (.call (.addGroup 1 .any) trivial (.call adding trivial (.start ..)))
  have beside := move_exact reachable (.conditionBefore 4 1 2)
  have into := move_exact reachable (.conditionLast 2 3)
  have moves : (mixed.perform (.moveCondition 4 1 (some 2))).result = .flag true := by decide
  have enters : (mixed.perform (.moveCondition 2 3 none)).result = .flag true := by decide
  exact ⟨reachable, moves, beside.2 moves, by decide, (into.1.1 enters).2⟩

end FieldFilter.Session
