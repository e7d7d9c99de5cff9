import FieldFilter.Proofs.Outline.Shells
import FieldFilter.Session.Call

/-!
# What calls that edit can do

For each call on the outline one lemma lists what it can do: it is refused, and leaves the session
as it is, or it changes the outline in one way and the session is judged again. Moves need a sound
session for this: in one, a node that nothing stops is put into its target (`relocate_cases`).
`Admits` says what stops no move (`obstacle?_eq_none_iff`).
-/

namespace FieldFilter

variable {α β : Type}

/-- The answer of a call and the session after it. -/
structure Outcome.Gives (o : Outcome α) (a : α) (t : Session) : Prop where
  result : o.result = a
  session : o.session = t

theorem Outcome.Gives.map {o : Outcome α} {a : α} {t : Session} (h : o.Gives a t) (f : α → β) :
    (o.map f).Gives (f a) t :=
  ⟨congrArg f h.result, h.session⟩

namespace Session

open FieldFilter.Group

/-- The outline is intact, and all its ids were drawn. -/
structure Sound (s : Session) : Prop where
  intact : s.root.Intact
  drawn : ∀ id ∈ s.root.ids, id < s.next

/-- The next id is new to the outline. -/
theorem next_not_mem {s : Session} (hs : s.Sound) : s.next ∉ s.root.ids :=
  fun old => Nat.lt_irrefl s.next (hs.drawn s.next old)

theorem revalidate_session (s : Session) :
    s.revalidate.session = { s with verdict := s.judge } := by
  unfold revalidate judge
  split
  rename_i verdict events judged
  rw [judged]
  cases verdict <;> rfl

theorem revalidate_result (s : Session) : s.revalidate.result = s.judge.isOk := by
  unfold revalidate judge
  split
  rename_i verdict events judged
  rw [judged]
  cases verdict <;> rfl

/-! ## Adding -/

theorem newCondition_id (s : Session) (today : Day) : (s.newCondition today).id = s.next := by
  unfold newCondition
  split <;> rfl

theorem addCondition_cases (s : Session) (today : Day) (group : NodeId) :
    (¬ (s.root.size < Limits.treeNodes ∧ s.root.Has .group group) ∧
      (s.addCondition today group).Gives none s) ∨
    ∃ g, s.root.size < Limits.treeNodes ∧
      s.root.modifyGroup group (insertChild (.condition (s.newCondition today)) none) = some g ∧
      (s.addCondition today group).Gives (some s.next) { s with
        root := g, next := s.next + 1, scrollTarget := some s.next }.revalidate.session := by
  unfold addCondition
  split
  · rename_i full
    exact .inl ⟨fun possible => Nat.not_lt.2 full possible.1, rfl, rfl⟩
  · rename_i room
    split
    · rename_i nothing
      refine .inl ⟨fun possible => ?_, rfl, rfl⟩
      obtain ⟨g, inserted⟩ := exists_modifyGroup_iff.2 possible.2
      rw [nothing] at inserted
      cases inserted
    · rename_i g inserted
      exact .inr ⟨g, Nat.lt_of_not_le room, inserted, rfl, rfl⟩

/-- The last refusal, after an id was drawn, does not come about: a group whose depth is found can
be changed. -/
theorem addGroup_cases (s : Session) (parent : NodeId) (j : Junction) :
    (¬ (s.root.size < Limits.treeNodes ∧
        ∃ depth, s.root.depth? parent = some depth ∧ depth < s.preferences.maxNesting) ∧
      (s.addGroup parent j).Gives none s) ∨
    ∃ depth g, s.root.size < Limits.treeNodes ∧ s.root.depth? parent = some depth ∧
      depth < s.preferences.maxNesting ∧
      s.root.modifyGroup parent (insertChild (.group (.empty s.next j)) none) = some g ∧
      (s.addGroup parent j).Gives (some s.next)
        { s with root := g, next := s.next + 1 }.revalidate.session := by
  unfold addGroup
  split
  · rename_i full
    exact .inl ⟨fun possible => Nat.not_lt.2 full possible.1, rfl, rfl⟩
  · rename_i room
    split
    · rename_i nothing
      refine .inl ⟨?_, rfl, rfl⟩
      rintro ⟨-, depth, found, -⟩
      rw [nothing] at found
      cases found
    · rename_i depth found
      split
      · rename_i deep
        refine .inl ⟨?_, rfl, rfl⟩
        rintro ⟨-, depth', found', shallow⟩
        obtain rfl := Option.some.inj (found.symm.trans found')
        exact Nat.not_lt.2 deep shallow
      · rename_i shallow
        obtain ⟨_, x, -, stands, named⟩ := sits_of_depth? s.root depth found
        obtain ⟨g, inserted⟩ := exists_modifyGroup_iff
          (f := insertChild (.group (.empty s.next j)) none) |>.2 ⟨x, stands.mem, named⟩
        rw [inserted]
        exact .inr ⟨depth, g, Nat.lt_of_not_le room, found, Nat.lt_of_not_le shallow, rfl, rfl, rfl⟩

/-! ## Changing and deleting -/

theorem updateCondition_cases (s : Session) (id : NodeId) (patch : Patch) :
    (¬ s.root.Has .condition id ∧ (s.updateCondition id patch).Gives false s) ∨
    ∃ g, s.root.modifyCondition id (Condition.apply patch) = some g ∧
      (s.updateCondition id patch).Gives true { s with root := g }.revalidate.session := by
  unfold updateCondition
  split
  · rename_i nothing
    refine .inl ⟨fun has => ?_, rfl, rfl⟩
    obtain ⟨g, modified⟩ := exists_modifyCondition_iff.2 has
    rw [nothing] at modified
    cases modified
  · rename_i g modified
    exact .inr ⟨g, modified, rfl, rfl⟩

theorem updateGroup_cases (s : Session) (id : NodeId) (j : Junction) :
    (¬ s.root.Has .group id ∧ (s.updateGroup id j).Gives false s) ∨
    ∃ g, s.root.modifyGroup id (fun x => { x with junction := j }) = some g ∧
      (s.updateGroup id j).Gives true { s with root := g }.revalidate.session := by
  unfold updateGroup
  split
  · rename_i nothing
    refine .inl ⟨fun has => ?_, rfl, rfl⟩
    obtain ⟨g, modified⟩ := exists_modifyGroup_iff.2 has
    rw [nothing] at modified
    cases modified
  · rename_i g modified
    exact .inr ⟨g, modified, rfl, rfl⟩

theorem deleteCondition_cases (s : Session) (id : NodeId) :
    (¬ s.root.Has .condition id ∧ (s.deleteCondition id).Gives false s) ∨
    ∃ g origin item, s.root.detach .condition id = some (g, origin, item) ∧
      (s.deleteCondition id).Gives true { s with root := g }.revalidate.session := by
  unfold deleteCondition
  split
  · rename_i nothing
    refine .inl ⟨fun has => ?_, rfl, rfl⟩
    obtain ⟨r, detached⟩ := exists_detach has nofun
    rw [nothing] at detached
    cases detached
  · rename_i g taken detached
    exact .inr ⟨g, taken.1, taken.2, detached, rfl, rfl⟩

theorem deleteGroup_cases (s : Session) (id : NodeId) :
    (¬ (s.root.Has .group id ∧ id ≠ s.root.id) ∧ (s.deleteGroup id).Gives false s) ∨
    ∃ g origin item, id ≠ s.root.id ∧ s.root.detach .group id = some (g, origin, item) ∧
      (s.deleteGroup id).Gives true { s with root := g }.revalidate.session := by
  unfold deleteGroup
  split
  · rename_i root
    exact .inl ⟨fun possible => possible.2 root, rfl, rfl⟩
  · rename_i other
    split
    · rename_i nothing
      refine .inl ⟨fun possible => ?_, rfl, rfl⟩
      obtain ⟨r, detached⟩ := exists_detach possible.1 fun _ => other
      rw [nothing] at detached
      cases detached
    · rename_i g taken detached
      exact .inr ⟨g, taken.1, taken.2, other, detached, rfl, rfl⟩

/-! ## Moving -/

/-- A node can move into a group: both are there and, if the node is a group, it is not the root,
the target is neither this group nor below it, and the preferences let it nest there. -/
structure Admits (s : Session) (kind : Kind) (id target : NodeId) : Prop where
  into : s.root.Has .group target
  node : s.root.Has kind id
  below : kind = .group → id ≠ s.root.id
  outside : kind = .group → ∀ x ∈ s.root.family, x.id = id → ¬ x.Has .group target
  room : kind = .group → ∀ x ∈ s.root.family, x.id = id →
    ∃ depth, s.root.depth? target = some depth ∧ depth + x.height ≤ s.preferences.maxNesting

/-- Between groups that are there, a move is admitted unless the target is inside the group that
moves, or too deep for it. -/
theorem admits_group_iff {s : Session} (hs : s.Sound) {x y : Group} {depth : Nat}
    (hx : x ∈ s.root.family) (hy : y ∈ s.root.family) (below : x.id ≠ s.root.id)
    (deep : s.root.depth? y.id = some depth) : s.Admits .group x.id y.id ↔
      ¬ x.Has .group y.id ∧ depth + x.height ≤ s.preferences.maxNesting := by
  constructor
  · intro admits
    obtain ⟨depth', same, room⟩ := admits.room rfl x hx rfl
    obtain rfl := Option.some.inj (deep.symm.trans same)
    exact ⟨admits.outside rfl x hx rfl, room⟩
  · rintro ⟨outside, room⟩
    have own : ∀ z ∈ s.root.family, z.id = x.id → z = x :=
      fun z hz same => eq_of_id hs.intact.unique hz hx same
    refine ⟨⟨y, hy, rfl⟩, ⟨x, hx, rfl⟩, fun _ => below, fun _ z hz same => ?_,
      fun _ z hz same => ?_⟩
    · rw [own z hz same]
      exact outside
    · rw [own z hz same]
      exact ⟨depth, deep, room⟩

/-- Nothing stops the moves that are admitted, and only them. -/
theorem obstacle?_eq_none_iff {s : Session} (hs : s.Sound) {kind : Kind} {id target : NodeId} :
    s.obstacle? kind id target = none ↔ s.Admits kind id target := by
  have unique := hs.intact.unique
  by_cases there : s.root.Has .group target
  swap
  · simp only [obstacle?, findGroup?_eq_none there, reduceCtorEq, false_iff]
    exact fun admits => there admits.into
  obtain ⟨y, hy, rfl⟩ := there
  have found := findGroup?_of_mem unique hy
  cases kind with
  | condition =>
    have has : (s.root.findCondition? id).isNone = false ↔ s.root.Has .condition id := by
      rw [← exists_findCondition?_iff, ← Option.isSome_iff_exists]
      cases s.root.findCondition? id <;> simp
    simp only [obstacle?, found, ite_eq_right_iff, reduceCtorEq, imp_false, Bool.not_eq_true, has]
    exact ⟨fun node => ⟨⟨y, hy, rfl⟩, node, nofun, nofun, nofun⟩, Admits.node⟩
  | group =>
    by_cases root : id = s.root.id
    · simp only [obstacle?, found, if_pos root, reduceCtorEq, false_iff]
      exact fun admits => admits.below rfl root
    by_cases node : s.root.Has .group id
    swap
    · simp only [obstacle?, found, if_neg root, findGroup?_eq_none node, reduceCtorEq, false_iff]
      exact fun admits => node admits.node
    obtain ⟨x, hx, rfl⟩ := node
    obtain ⟨n, stands⟩ := exists_sits s.root y hy
    have depth := stands.depth? unique
    have within : (x.findGroup? y.id).isSome = true ↔ x.Has .group y.id := by
      rw [Option.isSome_iff_exists, exists_findGroup?_iff]
    rw [admits_group_iff hs hx hy root depth]
    simp only [obstacle?, found, if_neg root, findGroup?_of_mem unique hx, depth, Option.getD_some]
    split
    · rename_i inside
      exact iff_of_false nofun fun free => free.1 (within.1 inside)
    · rename_i outside
      split
      · rename_i deep
        exact iff_of_false nofun fun free => Nat.not_le.2 deep free.2
      · rename_i shallow
        exact iff_of_true rfl ⟨fun has => outside (within.2 has), Nat.le_of_not_lt shallow⟩

/-- What is taken out for a move that is admitted leaves the target in the outline. -/
theorem Admits.kept {s : Session} {kind : Kind} {id target origin : NodeId}
    {rest : Group} {item : Item} (h : s.Admits kind id target)
    (detached : s.root.detach kind id = some (rest, origin, item)) : rest.Has .group target := by
  refine has_of_detached detached h.into fun y hy same => ?_
  cases item with
  | condition c => cases hy
  | group x =>
    obtain ⟨hx, named⟩ := mem_of_detach detached
    obtain rfl : .group = kind := congrArg ChildRef.kind (detach_ref detached)
    exact h.outside rfl x hx named ⟨y, hy, same⟩

/-- The last refusals, after the node was taken out, do not come about. -/
theorem relocate_cases {s : Session} (hs : s.Sound) (kind : Kind) (id : NodeId) (d : Destination) :
    (¬ (d.anchor ≠ some id ∧ s.Admits kind id d.group) ∧
      (s.relocate kind id d).Gives false s) ∨
    ∃ rest origin item g, d.anchor ≠ some id ∧ s.Admits kind id d.group ∧
      s.root.detach kind id = some (rest, origin, item) ∧
      rest.modifyGroup d.group (insertChild item ((rest.findGroup? d.group).bind d.index?)) =
        some g ∧
      (s.relocate kind id d).Gives true { s with root := g }.revalidate.session := by
  unfold relocate
  split
  · rename_i itself
    exact .inl ⟨fun possible => possible.1 itself, rfl, rfl⟩
  · rename_i other
    split
    · rename_i obstacle stops
      refine .inl ⟨fun possible => ?_, rfl, rfl⟩
      rw [(obstacle?_eq_none_iff hs).2 possible.2] at stops
      cases stops
    · rename_i free
      have admits := (obstacle?_eq_none_iff hs).1 free
      obtain ⟨⟨rest, origin, item⟩, detached⟩ := exists_detach admits.node admits.below
      obtain ⟨g, inserted⟩ := exists_modifyGroup_iff
        (f := insertChild item ((rest.findGroup? d.group).bind d.index?)) |>.2
        (admits.kept detached)
      simp only [detached, inserted]
      exact .inr ⟨rest, origin, item, g, other, admits, rfl, inserted, rfl, rfl⟩

/-- A dragged item moves as any other one; what is reported besides makes no difference. -/
theorem moveItem_gives {s : Session} {kind : Kind} {id reported : NodeId} {d : Destination}
    {b : Bool} {t : Session} (h : (s.relocate kind id d).Gives b t) :
    (s.moveItem kind id reported d).Gives b t := by
  unfold moveItem
  split
  · rename_i itself
    rwa [relocate, if_pos itself] at h
  · exact ⟨h.result, h.session⟩

/-- A drop is refused, or it is the move that it comes down to. -/
theorem drop_cases (s : Session) (drop : Drop) : (s.drop drop).Gives false s ∨
    ∃ d, (drop.resolve s.root).1 = some d ∧ ∀ {b t},
      (s.relocate drop.dragged.kind drop.dragged.id d).Gives b t → (s.drop drop).Gives b t := by
  unfold Session.drop
  split
  · exact .inl ⟨rfl, rfl⟩
  · rename_i d events resolved
    refine .inr ⟨d, congrArg Prod.fst resolved, fun moved => ?_⟩
    have same : (s.moveItem drop.dragged.kind drop.dragged.id drop.dragged.group d).Gives _ _ :=
      moveItem_gives moved
    exact ⟨same.result, same.session⟩

end Session

end FieldFilter
