import FieldFilter.Proofs.Outline.Restored
import FieldFilter.Proofs.Session.Moves
import FieldFilter.Proofs.Session.Texts

/-!
# Moves taken back

A move that succeeds can be taken back by another move: the node goes before what it stood before,
or to the end of its group if nothing stood behind it. The second move is admitted, since the group
that held the node is not below it and stays as deep as it was (`admits_back`). Then the outline
stands as it stood, and the session says the same of its filter (`move_undone`).
-/

namespace FieldFilter.Session

open FieldFilter.Group

/-- A dragged item is left where it is, or it is taken out and put in again; then, apart from the
outline, only the verdict can change. -/
theorem moveItem_cases {s : Session} (hs : s.Sound) (kind : Kind) (id reported : NodeId)
    (d : Destination) :
    (¬ (d.anchor ≠ some id ∧ s.Admits kind id d.group) ∧
      (s.perform (.moveItem kind id reported d)).Gives (.flag false) s) ∨
    ∃ t rest origin item, s.Admits kind id d.group ∧
      s.root.detach kind id = some (rest, origin, item) ∧
      rest.modifyGroup d.group (insertChild item ((rest.findGroup? d.group).bind d.index?)) =
        some t.root ∧
      t = { s with root := t.root, verdict := t.verdict } ∧
      (s.perform (.moveItem kind id reported d)).Gives (.flag true) t := by
  obtain ⟨impossible, refused⟩ | ⟨rest, origin, item, g, -, admits, detached, inserted, done⟩ :=
    relocate_cases hs kind id d
  · exact .inl ⟨impossible, (moveItem_gives refused).map Reply.flag⟩
  · rw [revalidate_session] at done
    exact .inr ⟨_, rest, origin, item, admits, detached, inserted, rfl,
      (moveItem_gives done).map Reply.flag⟩

/-- A moved node can go back into the group that held it, if the outline was no higher than the
preferences let groups nest. -/
theorem admits_back {s t : Session} (hs : s.Sound) (ht : t.Sound)
    (low : s.root.height ≤ s.preferences.maxNesting) (preferences : t.preferences = s.preferences)
    {kind : Kind} {id origin : NodeId} {d : Destination} {rest x : Group} {item : Item}
    (admits : s.Admits kind id d.group)
    (detached : s.root.detach kind id = some (rest, origin, item))
    (inserted : rest.modifyGroup d.group
      (insertChild item ((rest.findGroup? d.group).bind d.index?)) = some t.root)
    (hx : x ∈ s.root.family) (held : ⟨kind, id⟩ ∈ x.order) : t.Admits kind id x.id := by
  have moved := moved_of_detach hs.intact detached inserted
  obtain ⟨x', hx', same⟩ : t.root.Has .group x.id := moved.has.2 ⟨x, hx, rfl⟩
  cases kind with
  | condition => exact ⟨⟨x', hx', same⟩, moved.has.2 admits.node, nofun, nofun, nofun⟩
  | group =>
    obtain ⟨z, hz, hz', rfl⟩ := moved.group
    obtain ⟨n, stands⟩ := exists_sits s.root x hx
    have deep : t.root.depth? x.id = some (n + 1) :=
      (depth_of_move hs.intact detached inserted hx hx' same
        (outside_of_held hs.intact detached hx held)).trans (stands.depth? hs.intact.unique)
    have below := mem_groups_of_held hs.intact hx hz held
    have reach := (stands.trans (.inside below (.here z))).height_le
    rw [← same] at deep ⊢
    refine (admits_group_iff ht hz' hx' (moved.root ▸ admits.below rfl) deep).2 ⟨?_, ?_⟩
    · rw [same]
      exact not_has_of_held hs.intact hx hz held
    · rw [preferences]
      omega

/-- Where an outline gives the same expression, a coherent session that is otherwise the same has
the same verdict. -/
theorem eq_of_expression {s t : Session} (hs : s.Coherent) (ht : t.Coherent)
    (rest : t = { s with root := t.root, verdict := t.verdict })
    (same : t.root.expression? = s.root.expression?) : t = { s with root := t.root } := by
  have verdict : t.verdict = s.verdict := by
    rw [ht, hs, judge_eq, judge_eq, judgeOutline_congr _ same, rest]
  rw [verdict] at rest
  exact rest

/-- The session `t` is `s` with an outline that stands as the outline of `s`. -/
structure Undone (s t : Session) : Prop where
  outline : Restored s.root t.root
  tree : t.root.tree = s.root.tree
  expression : t.root.expression? = s.root.expression?
  agrees : t.Agrees s
  session : t = { s with root := t.root }

/-- In every reachable session whose outline is no higher than the preferences let groups nest, an
item that was moved moves back before what it stood before, or to the end of its group if nothing
stood behind it; and then all children stand as they stood, no node has changed, and the session is
the old one but for the rows in which children arrived. -/
theorem move_undone {s t : Session} (h : Reachable s)
    (low : s.root.height ≤ s.preferences.maxNesting) {x : Group} (hx : x ∈ s.root.family)
    {kind : Kind} {id : NodeId} {front back : List ChildRef}
    (stood : x.order = front ++ ⟨kind, id⟩ :: back) {reported : NodeId} {d : Destination}
    (moved : (s.perform (.moveItem kind id reported d)).Gives (.flag true) t)
    (reported' : NodeId) :
    ∃ u, (t.perform (.moveItem kind id reported'
        (beforeOrLast x.id (back.head?.map ChildRef.id)))).Gives (.flag true) u ∧
      Undone s u := by
  have held : ⟨kind, id⟩ ∈ x.order := by simp [stood]
  -- the first move, and the outline that it leaves
  obtain ⟨-, refused⟩ | ⟨t, rest, origin, item, admits, detached, inserted, kept, away⟩ :=
    moveItem_cases h.sound kind id reported d
  · cases refused.result.symm.trans moved.result
  obtain rfl := away.session.symm.trans moved.session
  have later : Reachable t := moved.session ▸ .call _ trivial h
  -- the second one, back to where the node stood
  obtain ⟨impossible, -⟩ | ⟨u, _, _, _, -, detached', inserted', kept', home⟩ :=
    moveItem_cases later.sound kind id reported' (beforeOrLast x.id (back.head?.map ChildRef.id))
  · refine absurd ⟨behind_ne h.sound.intact hx stood, ?_⟩ impossible
    exact admits_back h.sound later.sound low (by rw [kept]) admits detached inserted hx held
  have last : Reachable u := home.session ▸ .call _ trivial later
  have outline : Restored s.root u.root :=
    (moved_of_detach h.sound.intact detached inserted).restored h.sound.intact hx stood
      (moved_of_detach later.sound.intact detached' inserted')
  have written := outline.expression? h.sound.intact last.sound.intact
  have session : u = { s with root := u.root } := by
    refine eq_of_expression h.coherent last.coherent ?_ written
    rw [kept] at kept'
    exact kept'
  refine ⟨u, home, outline, outline.tree h.sound.intact last.sound.intact, written, ?_, session⟩
  apply agrees_of_verdict
  rw [session]

/-- In the root with the condition `2`, the group `3` and the condition `4`, the condition `2` moves
into the group `3` and back. It stands first again, but it arrived last. -/
theorem move_undone_mixed : Reachable mixed ∧ mixed.root.height ≤ mixed.preferences.maxNesting ∧
    mixed.root ∈ mixed.root.family ∧
    mixed.root.order = [] ++ ⟨.condition, 2⟩ :: [⟨.group, 3⟩, ⟨.condition, 4⟩] ∧
    ∃ t u, (mixed.perform (.moveItem .condition 2 1 ⟨3, none, .after⟩)).Gives (.flag true) t ∧
      (t.perform (.moveItem .condition 2 3 (beforeOrLast 1 (some 3)))).Gives (.flag true) u ∧
      Undone mixed u ∧ u.root.conditions.map Condition.id = [4, 2] := by
  have low : mixed.root.height ≤ mixed.preferences.maxNesting := by decide
  have order : mixed.root.order = [] ++ ⟨.condition, 2⟩ :: [⟨.group, 3⟩, ⟨.condition, 4⟩] := by
    decide
  have moved : (mixed.perform (.moveItem .condition 2 1 ⟨3, none, .after⟩)).Gives (.flag true)
      (mixed.perform (.moveItem .condition 2 1 ⟨3, none, .after⟩)).session := ⟨by decide, rfl⟩
  obtain ⟨u, home, undone⟩ := move_undone reachable_mixed low (mem_family_self _) order moved 3
  refine ⟨reachable_mixed, low, mem_family_self _, order, _, u, moved, home, undone, ?_⟩
  rw [← home.session]
  decide

end FieldFilter.Session
