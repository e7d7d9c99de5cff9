import FieldFilter.Proofs.Outline.Revisions
import FieldFilter.Proofs.Session.Coherence

/-!
# Edits of different nodes

The calls that change or delete a node come down to one thing: the outline is revised at the node,
and the session is judged again (`Edits.revised`). That goes for the refused ones too, since without
the node the revision changes nothing and the verdict is up to date already. So edits of different
nodes commute (`edits_commute`), although the one may be refused after the other: the node of one
can be inside the group that the other deletes.
-/

namespace FieldFilter.Session

open FieldFilter.Group

/-- The calls that change or delete a node. -/
inductive Edits : Call → NodeId → Prop
  | updateCondition (id : NodeId) (patch : Patch) : Edits (.updateCondition id patch) id
  | updateGroup (id : NodeId) (j : Junction) : Edits (.updateGroup id j) id
  | deleteCondition (id : NodeId) : Edits (.deleteCondition id) id
  | deleteGroup (id : NodeId) : Edits (.deleteGroup id) id

/-- The session after a revision of its outline. -/
def revised (s : Session) (e : Revision) : Session :=
  { s with root := s.root.revise e }.revalidate.session

section
variable {s : Session} {e : Revision}

theorem Sound.revised (hs : s.Sound) (e : Revision) : (s.revised e).Sound := by
  rw [Session.revised, revalidate_session]
  exact ⟨hs.intact.revise e, fun id hid => hs.drawn id ((ids_revise e s.root).subset hid)⟩

theorem coherent_revised (s : Session) (e : Revision) : (s.revised e).Coherent :=
  coherent_revalidate _

theorem revised_self (hs : s.Coherent) (same : s.root.revise e = s.root) : s.revised e = s := by
  rw [revised, same]
  exact hs.revalidate.1

/-- The verdict is on the last outline only. -/
theorem revised_comm {f : Revision} {node other : ChildRef} (he : e.Concerns node)
    (hf : f.Concerns other) (differ : node ≠ other) (s : Session) :
    (s.revised e).revised f = (s.revised f).revised e := by
  have twice (e f : Revision) : (s.revised e).revised f =
      { s with root := (s.root.revise e).revise f }.revalidate.session := by
    simp only [revised, revalidate_session]
    rfl
  rw [twice, twice, revise_comm he hf differ]

/-! ## Edits as revisions -/

/-- A call that is refused where the revision changes nothing, and makes it otherwise. -/
theorem revised_of_cases {o : Outcome Bool} (hs : s.Coherent)
    (h : s.root.revise e = s.root ∧ o.Gives false s ∨
      ∃ g, s.root.revise e = g ∧ o.Gives true { s with root := g }.revalidate.session) :
    (o.map Reply.flag).session = s.revised e := by
  obtain ⟨same, refused⟩ | ⟨g, rfl, done⟩ := h
  · exact refused.session.trans (revised_self hs same).symm
  · exact done.session

/-- An edit revises the outline at its node. -/
theorem Edits.revised {c : Call} {id : NodeId} (h : Edits c id) :
    ∃ e node, node.id = id ∧ Revision.Concerns e node ∧
      ∀ s : Session, s.Sound → s.Coherent → (s.perform c).session = s.revised e := by
  cases h with
  | updateCondition id patch =>
    have kept : ∀ c : Condition, (c.apply patch).id = c.id := fun _ => rfl
    have concerns := Revision.concerns_changing id kept
    refine ⟨_, _, rfl, concerns, fun s hs coherent => revised_of_cases coherent ?_⟩
    obtain ⟨absent, refused⟩ | ⟨g, modified, done⟩ := updateCondition_cases s id patch
    · exact .inl ⟨revise_self concerns _ hs.intact.ordered absent, refused⟩
    · exact .inr ⟨g, modifyCondition_revise kept hs.intact modified, done⟩
  | updateGroup id j =>
    have concerns := Revision.concerns_rejoining id j
    refine ⟨_, _, rfl, concerns, fun s hs coherent => revised_of_cases coherent ?_⟩
    obtain ⟨absent, refused⟩ | ⟨g, modified, done⟩ := updateGroup_cases s id j
    · exact .inl ⟨revise_self concerns _ hs.intact.ordered absent, refused⟩
    · exact .inr ⟨g, modifyGroup_revise hs.intact modified, done⟩
  | deleteCondition id =>
    have concerns := Revision.concerns_removing .condition id
    refine ⟨_, _, rfl, concerns, fun s hs coherent => revised_of_cases coherent ?_⟩
    obtain ⟨absent, refused⟩ | ⟨g, origin, item, detached, done⟩ := deleteCondition_cases s id
    · exact .inl ⟨revise_self concerns _ hs.intact.ordered absent, refused⟩
    · exact .inr ⟨g, detach_revise hs.intact detached, done⟩
  | deleteGroup id =>
    have concerns := Revision.concerns_removing .group id
    refine ⟨_, _, rfl, concerns, fun s hs coherent => revised_of_cases coherent ?_⟩
    obtain ⟨impossible, refused⟩ | ⟨g, origin, item, -, detached, done⟩ := deleteGroup_cases s id
    · refine .inl ⟨?_, refused⟩
      by_cases root : id = s.root.id
      · exact root ▸ removing_root hs.intact
      · exact revise_self concerns _ hs.intact.ordered fun has => impossible ⟨has, root⟩
    · exact .inr ⟨g, detach_revise hs.intact detached, done⟩

end

/-- In every reachable session, two calls that change or delete nodes with different ids lead to the
same session in either order, wherever the nodes are and whether they are there or not. -/
theorem edits_commute {s : Session} (h : Reachable s) {c d : Call} {a b : NodeId}
    (first : Edits c a) (second : Edits d b) (differ : a ≠ b) :
    ((s.perform c).session.perform d).session = ((s.perform d).session.perform c).session := by
  obtain ⟨e, node, rfl, he, edit⟩ := first.revised
  obtain ⟨f, other, rfl, hf, edit'⟩ := second.revised
  have sound := h.sound
  rw [edit s sound h.coherent, edit' s sound h.coherent,
    edit' _ (sound.revised e) (coherent_revised s e),
    edit _ (sound.revised f) (coherent_revised s f)]
  exact revised_comm he hf (fun same => differ (congrArg ChildRef.id same)) s

/-- The root with the group `2`, and in it the condition `3`. -/
def nested : Session := after [.addGroup 1 .any, adding, .moveCondition 3 2 none]

/-- The condition `3` can be changed only before the group `2` is deleted. -/
theorem edits_commute_nested : Reachable nested ∧
    (nested.perform (.updateCondition 3 .empty)).result = .flag true ∧
    ((nested.perform (.deleteGroup 2)).session.perform (.updateCondition 3 .empty)).result =
      .flag false ∧
    ((nested.perform (.deleteGroup 2)).session.perform (.updateCondition 3 .empty)).session =
      ((nested.perform (.updateCondition 3 .empty)).session.perform (.deleteGroup 2)).session := by
  have reachable : Reachable nested :=
    .call (.moveCondition 3 2 none) trivial
      (.call adding trivial (.call (.addGroup 1 .any) trivial (.start ..)))
  exact ⟨reachable, by decide, by decide,
    edits_commute reachable (.deleteGroup 2) (.updateCondition 3 .empty) (by decide)⟩

end FieldFilter.Session
