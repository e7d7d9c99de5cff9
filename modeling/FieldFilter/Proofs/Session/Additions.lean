import FieldFilter.Proofs.Outline.Cancelling
import FieldFilter.Proofs.Session.Commuting

/-!
# Additions taken back

A node that was added is deleted again by the call that deletes nodes of its kind. Its id is new to
the outline, so what is taken out is what was put in (`Added.detach`), and the outline is the old
one with all its rows. The verdict is on the view that counts, which is the old one again
(`Added.back`). So the session is the one before the two calls, but for the next id to draw and the
node to bring into sight (`add_delete`).
-/

namespace FieldFilter.Session

open FieldFilter.Group

/-- The session `t` is `s` with a node of its own under the next id, which was put last into a
group. -/
structure Added (s t : Session) (target : NodeId) (item : Item) : Prop where
  new : item.ids = [s.next]
  ordered : ∀ x ∈ item.family, x.Ordered
  inserted : s.root.modifyGroup target (insertChild item none) = some t.root
  session : t = { s with
    root := t.root, next := t.next, verdict := t.verdict, scrollTarget := t.scrollTarget }

section
variable {s t : Session} {target id : NodeId}

theorem addCondition_added {today : Day} (h : (s.addCondition today target).Gives (some id) t) :
    ∃ item, item.ref = ⟨.condition, id⟩ ∧ Added s t target item := by
  obtain ⟨-, refused⟩ | ⟨g, -, inserted, done⟩ := addCondition_cases s today target
  · cases refused.result.symm.trans h.result
  · obtain rfl := Option.some.inj (done.result.symm.trans h.result)
    rw [revalidate_session] at done
    obtain rfl := done.session.symm.trans h.session
    have named := newCondition_id s today
    exact ⟨.condition (s.newCondition today), congrArg (ChildRef.mk .condition) named,
      congrArg ([·]) named, nofun, inserted, rfl⟩

theorem addGroup_added {j : Junction} (h : (s.addGroup target j).Gives (some id) t) :
    ∃ item, item.ref = ⟨.group, id⟩ ∧ Added s t target item := by
  obtain ⟨-, refused⟩ | ⟨depth, g, -, -, -, inserted, done⟩ := addGroup_cases s target j
  · cases refused.result.symm.trans h.result
  · obtain rfl := Option.some.inj (done.result.symm.trans h.result)
    rw [revalidate_session] at done
    obtain rfl := done.session.symm.trans h.session
    exact ⟨.group (empty s.next j), rfl, rfl, (intact_empty s.next j).ordered, inserted, rfl⟩

namespace Added

variable {kind : Kind} {item : Item}

/-- The new node comes out of the group that it was put into, and leaves the outline as it was. -/
theorem detach (h : Added s t target item) (hs : s.Sound) (ref : item.ref = ⟨kind, id⟩) :
    t.root.detach kind id = some (s.root, target, item) := by
  obtain ⟨rfl, rfl⟩ := ChildRef.mk.inj ref
  refine detach_insert hs.intact h.ordered ?_ h.inserted
  rw [h.new]
  exact List.nodup_cons.2 ⟨next_not_mem hs, hs.intact.unique⟩

/-- With the old outline the session has its old verdict. -/
theorem back (h : Added s t target item) (hs : s.Coherent) :
    { t with root := s.root }.revalidate.session =
      { s with next := t.next, scrollTarget := t.scrollTarget } := by
  have judged : { t with root := s.root }.judge = s.verdict := by
    rw [h.session]
    exact hs.symm
  rw [revalidate_session, judged, h.session]

theorem deleteCondition (h : Added s t target item) (hs : s.Sound) (coherent : s.Coherent)
    (ref : item.ref = ⟨.condition, id⟩) : (t.deleteCondition id).Gives true
      { s with next := t.next, scrollTarget := t.scrollTarget } := by
  have out := h.detach hs ref
  obtain ⟨absent, -⟩ | ⟨_, _, _, detached, deleted⟩ := deleteCondition_cases t id
  · exact absurd (has_of_detach out) absent
  · cases out.symm.trans detached
    exact ⟨deleted.result, deleted.session.trans (h.back coherent)⟩

theorem deleteGroup (h : Added s t target item) (hs : s.Sound) (coherent : s.Coherent)
    (ref : item.ref = ⟨.group, id⟩) : (t.deleteGroup id).Gives true
      { s with next := t.next, scrollTarget := t.scrollTarget } := by
  have out := h.detach hs ref
  have same : item.id = id := congrArg ChildRef.id ref
  have named : item.id = s.next := by simpa [h.new] using item.id_mem_ids
  have below : id ≠ t.root.id := by
    rw [insert_root h.inserted, ← same, named]
    exact fun root => next_not_mem hs (root ▸ s.root.id_mem_ids)
  obtain ⟨absent, -⟩ | ⟨_, _, _, -, detached, deleted⟩ := deleteGroup_cases t id
  · exact absurd ⟨has_of_detach out, below⟩ absent
  · cases out.symm.trans detached
    exact ⟨deleted.result, deleted.session.trans (h.back coherent)⟩

end Added

end

/-- In every reachable session, on either tab, a condition or a group that was added is deleted
again, and what is left is the session before: the same outline, with all orders and with the rows
in which children arrived, the same tab, text and verdict. Only the next id to draw and the node to
bring into sight are those after the addition. -/
theorem add_delete {s : Session} (h : Reachable s) (target : NodeId) :
    (∀ today id t, (s.perform (.addCondition today target)).Gives (.node (some id)) t →
      (t.perform (.deleteCondition id)).Gives (.flag true)
        { s with next := t.next, scrollTarget := t.scrollTarget }) ∧
    ∀ j id t, (s.perform (.addGroup target j)).Gives (.node (some id)) t →
      (t.perform (.deleteGroup id)).Gives (.flag true)
        { s with next := t.next, scrollTarget := t.scrollTarget } := by
  refine ⟨fun today id t done => ?_, fun j id t done => ?_⟩
  · have done : (s.addCondition today target).Gives (some id) t :=
      ⟨Reply.node.inj done.result, done.session⟩
    obtain ⟨item, ref, added⟩ := addCondition_added done
    exact (added.deleteCondition h.sound h.coherent ref).map Reply.flag
  · have done : (s.addGroup target j).Gives (some id) t :=
      ⟨Reply.node.inj done.result, done.session⟩
    obtain ⟨item, ref, added⟩ := addGroup_added done
    exact (added.deleteGroup h.sound h.coherent ref).map Reply.flag

/-- The outline with the group `2`, and in it the condition `3`, behind a text that breaks off. -/
def covered : Session :=
  ((nested.perform (.setTab .json)).session.perform (.setText "[")).session

/-- A condition or a group is added to the group `2` and deleted again. The condition `3` stays in
sight only after the group. -/
theorem add_delete_covered : Reachable covered ∧ covered.tab = .json ∧
    covered.verdict = .error .malformedText ∧
    ∃ t u, (covered.perform (.addCondition ⟨2024, 1, 1⟩ 2)).Gives (.node (some 4)) t ∧
      (t.perform (.deleteCondition 4)).Gives (.flag true)
        { covered with next := 5, scrollTarget := some 4 } ∧
      (covered.perform (.addGroup 2 .any)).Gives (.node (some 4)) u ∧
      (u.perform (.deleteGroup 4)).Gives (.flag true)
        { covered with next := 5, scrollTarget := some 3 } := by
  have reachable : Reachable covered :=
    .call (.setText "[") trivial (.call (.setTab .json) trivial
      (.call (.moveCondition 3 2 none) trivial
        (.call adding trivial (.call (.addGroup 1 .any) trivial (.start ..)))))
  obtain ⟨conditions, groups⟩ := add_delete reachable 2
  have first : (covered.perform (.addCondition ⟨2024, 1, 1⟩ 2)).Gives (.node (some 4))
      (covered.perform (.addCondition ⟨2024, 1, 1⟩ 2)).session := ⟨by decide, rfl⟩
  have second : (covered.perform (.addGroup 2 .any)).Gives (.node (some 4))
      (covered.perform (.addGroup 2 .any)).session := ⟨by decide, rfl⟩
  exact ⟨reachable, rfl, rfl, _, _, first, conditions _ _ _ first, second, groups _ _ _ second⟩

end FieldFilter.Session
