import FieldFilter.Proofs.Drop.Decision
import FieldFilter.Proofs.Session.Moves

/-!
# Drops

A drop is the move to where it is shown to land, or it is refused (`drop_shown_cases`). If the
target that the view reports is in the outline, an anchor that is decided on stands in the group
that is decided on, and the item comes to stand right beside it (`drop_lands`). Which group the view
says that the item comes from makes no difference.
-/

namespace FieldFilter

open FieldFilter.Group FieldFilter.Drop

/-- The entry stands right beside an anchor, or without one first or last. -/
inductive Stands (r : ChildRef) : Option NodeId → Side → List ChildRef → Prop
  | first {rest : List ChildRef} : Stands r none .before (r :: rest)
  | last {rest : List ChildRef} : Stands r none .after (rest ++ [r])
  | before {a : ChildRef} {front back : List ChildRef} :
      Stands r (some a.id) .before (front ++ r :: a :: back)
  | after {a : ChildRef} {front back : List ChildRef} :
      Stands r (some a.id) .after (front ++ a :: r :: back)

theorem Placed.stands {r : ChildRef} {anchor : Option NodeId} {side : Side}
    {order order' : List ChildRef} (h : Placed r anchor side order order')
    (there : ∀ a, anchor = some a → ∃ q ∈ order, q.id = a) : Stands r anchor side order' := by
  cases h with
  | first => exact .first
  | last => exact .last
  | before => exact .before
  | after => exact .after
  | unanchored absent =>
    obtain ⟨q, hq, same⟩ := there _ rfl
    exact absurd same (absent q hq)

/-- The outline `g'` is `g` with a node brought to a destination. -/
structure Landed (g g' : Group) (kind : Kind) (id : NodeId) (d : Destination) : Prop where
  root : g'.id = g.id
  /-- The node is a child of the destination's group, with all below it as it was, and stands beside
  the anchor or, without one, first or last. -/
  place : ∃ x ∈ g'.family, x.id = d.group ∧ Stands ⟨kind, id⟩ d.anchor d.side x.order ∧
    ∃ i ∈ x.children, i.ref = ⟨kind, id⟩ ∧ ∃ y ∈ g.family, i ∈ y.children
  /-- The other children of every group stand as they stood. -/
  others : ∀ x ∈ g.family, ∀ x' ∈ g'.family, x'.id = x.id →
    x'.order.filter (· ≠ ⟨kind, id⟩) = x.order.filter (· ≠ ⟨kind, id⟩)
  conditions : g'.leaves.Perm g.leaves
  groups : (g'.shells.map Shell.head).Perm (g.shells.map Shell.head)

/-- A node lands where the move has it, if the anchor is another child of the target. -/
theorem Group.Moved.landed {g g' : Group} {kind : Kind} {id : NodeId} {d : Destination}
    (h : Moved g g' kind id d) {x : Group} (hx : x ∈ g.family) (into : x.id = d.group)
    (anchored : ∀ a, d.anchor = some a → (∃ r ∈ x.order, r.id = a) ∧ a ≠ id) :
    Landed g g' kind id d where
  root := h.root
  place := by
    obtain ⟨i, ref, stood, x', hx', into', stands⟩ := h.item
    have placed := h.target x hx x' hx' (into'.trans into.symm) into
    refine ⟨x', hx', into', placed.stands fun a ha => ?_, i, stands, ref, stood⟩
    obtain ⟨⟨r, hr, rfl⟩, other⟩ := anchored a ha
    refine ⟨r, List.mem_filter.2 ⟨hr, ?_⟩, rfl⟩
    simpa using fun same : r = ⟨kind, id⟩ => other (congrArg ChildRef.id same)
  others := fun _ hx _ hx' same => h.others hx hx' same
  conditions := h.conditions
  groups := h.groups

namespace Drop

/-- The target of a drop is a node of the outline, reported with its kind and, if it is a condition,
with the group that it stands in. -/
structure Targets (drop : Drop) (root : Group) (target : Touched) : Prop where
  reported : drop.target = some target
  node : root.Has target.kind target.id
  held : target.kind = .condition →
    ∃ x ∈ root.family, x.id = target.group ∧ ⟨.condition, target.id⟩ ∈ x.order

/-- The anchor that a drop is shown beside is a child of the group that is decided on, and not the
dragged item. -/
theorem Shown.anchor {drop : Drop} {root : Group} {target : Touched} {d : Destination}
    (shown : drop.Shown root d) (aimed : drop.Targets root target) :
    ∃ x ∈ root.family, x.id = d.group ∧
      ∀ a, d.anchor = some a → (∃ r ∈ x.order, r.id = a) ∧ a ≠ drop.dragged.id := by
  cases shown with
  | beside named other condition =>
    obtain rfl := Option.some.inj (named.symm.trans aimed.reported)
    obtain ⟨x, hx, into, entry⟩ := aimed.held condition
    refine ⟨x, hx, into, fun a anchored => ?_⟩
    obtain rfl := Option.some.inj anchored
    exact ⟨⟨_, entry, rfl⟩, other⟩
  | @inside _ x _ named other group hx same among =>
    exact ⟨x, hx, same.trans among.group.symm, fun a anchored => among.anchor anchored⟩

/-- The same drop of an item that is said to come from another group. -/
def reportedFrom (drop : Drop) (group : NodeId) : Drop :=
  { drop with dragged := { drop.dragged with group := group } }

end Drop

namespace Session

/-- A drop does what the move to its destination does. -/
theorem drop_eq (s : Session) (drop : Drop) : (s.drop drop).Gives
    (match (drop.resolve s.root).1 with
      | none => false
      | some d => (s.relocate drop.dragged.kind drop.dragged.id d).result)
    (match (drop.resolve s.root).1 with
      | none => s
      | some d => (s.relocate drop.dragged.kind drop.dragged.id d).session) := by
  unfold Session.drop
  split
  · rename_i resolved
    rw [resolved]
    exact ⟨rfl, rfl⟩
  · rename_i d events resolved
    rw [resolved]
    have moved : (s.moveItem drop.dragged.kind drop.dragged.id drop.dragged.group d).Gives _ _ :=
      moveItem_gives ⟨rfl, rfl⟩
    exact ⟨moved.result, moved.session⟩

/-- The move to where a drop is shown is not admitted, if it is shown anywhere, and the drop is
refused; or the drop is this move. -/
theorem drop_shown_cases {s : Session} (hs : s.Sound) (drop : Drop) :
    ((∀ d, drop.Shown s.root d → ¬ s.Admits drop.dragged.kind drop.dragged.id d.group) ∧
      (s.perform (.drop drop)).Gives (.flag false) s) ∨
    ∃ d rest origin item g, drop.Shown s.root d ∧
      s.Admits drop.dragged.kind drop.dragged.id d.group ∧
      s.root.detach drop.dragged.kind drop.dragged.id = some (rest, origin, item) ∧
      rest.modifyGroup d.group (insertChild item ((rest.findGroup? d.group).bind d.index?)) =
        some g ∧
      (s.perform (.drop drop)).Gives (.flag true) { s with root := g }.revalidate.session := by
  have gives := (drop_eq s drop).map Reply.flag
  cases decided : (drop.resolve s.root).1 with
  | none =>
    rw [decided] at gives
    refine .inl ⟨fun d shown => ?_, gives⟩
    rw [(resolve_iff hs.intact.unique).2 shown] at decided
    cases decided
  | some d =>
    rw [decided] at gives
    have shown := shown_of_resolve decided
    obtain ⟨impossible, refused⟩ | ⟨rest, origin, item, g, -, admits, detached, inserted, moved⟩ :=
      relocate_cases hs drop.dragged.kind drop.dragged.id d
    · refine .inl ⟨fun d' shown' admits => ?_, ?_⟩
      · obtain rfl := shown.unique hs.intact.unique shown'
        exact impossible ⟨shown.anchor_ne, admits⟩
      · exact ⟨gives.result.trans (congrArg Reply.flag refused.result),
          gives.session.trans refused.session⟩
    · refine .inr ⟨d, rest, origin, item, g, shown, admits, detached, inserted, ?_⟩
      exact ⟨gives.result.trans (congrArg Reply.flag moved.result),
        gives.session.trans moved.session⟩

/-- In every reachable session, a drop over a node of the outline that succeeds brings the item to
where it is shown to land: it is a child of the group then, right beside the anchor or, without one,
first or last; the other children of all groups stand as they stood, and no node is lost or changed.
Where the view says that the item comes from makes no difference to the result and the session. -/
theorem drop_lands {s : Session} (h : Reachable s) {drop : Drop} {target : Touched}
    (aimed : drop.Targets s.root target) :
    ((s.perform (.drop drop)).result = .flag true →
      ∃ d, drop.Shown s.root d ∧
        Landed s.root (s.perform (.drop drop)).session.root drop.dragged.kind drop.dragged.id d) ∧
    ∀ group,
      (s.perform (.drop (drop.reportedFrom group))).result = (s.perform (.drop drop)).result ∧
      (s.perform (.drop (drop.reportedFrom group))).session =
        (s.perform (.drop drop)).session := by
  constructor
  · intro succeeds
    obtain refused | ⟨d, resolved, move⟩ := drop_cases s drop
    · cases (refused.map Reply.flag).result.symm.trans succeeds
    · have shown := Drop.shown_of_resolve resolved
      obtain ⟨x, hx, into, anchored⟩ := shown.anchor aimed
      obtain ⟨-, refused⟩ | ⟨rest, origin, item, g, -, -, detached, inserted, moved⟩ :=
        relocate_cases h.sound drop.dragged.kind drop.dragged.id d
      · cases ((move refused).map Reply.flag).result.symm.trans succeeds
      · have session : (s.perform (.drop drop)).session = _ := (move moved).session
        refine ⟨d, shown, ?_⟩
        rw [session, revalidate_session]
        exact (moved_of_detach h.sound.intact detached inserted).landed hx into anchored
  · intro group
    have gives := (drop_eq s drop).map Reply.flag
    have gives' := (drop_eq s (drop.reportedFrom group)).map Reply.flag
    exact ⟨gives'.result.trans gives.result.symm, gives'.session.trans gives.session.symm⟩

/-- The condition `4` is dropped over the root, where it touches the condition `2` and the group `3`
and is said to come from the group `3`. -/
def between : Drop where
  dragged := ⟨4, .condition, 3⟩
  rect := none
  target := some ⟨1, .group, 1, ⟨0, 0, 300, 120⟩⟩
  touched := [⟨3, .group, 1, ⟨40, 0, 300, 40⟩⟩, ⟨4, .condition, 1, ⟨80, 0, 300, 40⟩⟩,
    ⟨2, .condition, 1, ⟨0, 0, 300, 40⟩⟩]

theorem resolve_between : (between.resolve mixed.root).1 = some ⟨1, some 2, .after⟩ := by
  have candidates : between.candidates mixed.root =
      [(0, ⟨2, .condition, 1, ⟨0, 0, 300, 40⟩⟩), (1, ⟨3, .group, 1, ⟨40, 0, 300, 40⟩⟩)] := by
    change List.mergeSort [(1, (⟨3, .group, 1, ⟨40, 0, 300, 40⟩⟩ : Touched)),
      (0, ⟨2, .condition, 1, ⟨0, 0, 300, 40⟩⟩)] _ = _
    simp [List.mergeSort]
  change some (destinationAmong _ _ (between.candidates mixed.root)) = _
  rw [candidates]
  rfl

theorem drop_lands_between : Reachable mixed ∧
    between.Targets mixed.root ⟨1, .group, 1, ⟨0, 0, 300, 120⟩⟩ ∧
    (mixed.perform (.drop between)).result = .flag true ∧
    (∃ d, between.Shown mixed.root d ∧
      Landed mixed.root (mixed.perform (.drop between)).session.root .condition 4 d) ∧
    (mixed.perform (.drop between)).session.root.order =
      [⟨.condition, 2⟩, ⟨.condition, 4⟩, ⟨.group, 3⟩] := by
  have aimed : between.Targets mixed.root ⟨1, .group, 1, ⟨0, 0, 300, 120⟩⟩ :=
    ⟨rfl, ⟨mixed.root, mem_family_self _, rfl⟩, nofun⟩
  have gives := (drop_eq mixed between).map Reply.flag
  rw [resolve_between] at gives
  have succeeds : (mixed.perform (.drop between)).result = .flag true :=
    gives.result.trans (by decide)
  have session : (mixed.perform (.drop between)).session = _ := gives.session
  refine ⟨reachable_mixed, aimed, succeeds, (drop_lands reachable_mixed aimed).1 succeeds, ?_⟩
  rw [session]
  decide

end Session

end FieldFilter
