import FieldFilter.Proofs.Session.Texts

/-!
# The node to bring into sight

A condition that is added becomes the scroll target. Calls that put another outline in place drop
the target; all other calls keep it (`perform_aim`), those that delete nodes as well. So the target
can be a condition that is not there any more, and this is so exactly if the condition was deleted,
by itself or with a group around it, since it became the target (`scrollTarget_gone_iff`).
-/

namespace FieldFilter.Session

open FieldFilter.Group

/-- The call deletes a condition, by itself or with a group around it. -/
def Deletes (s : Session) (id : NodeId) : Call → Prop
  | .deleteCondition own => own = id
  | .deleteGroup group =>
    group ≠ s.root.id ∧ ∃ x ∈ s.root.family, x.id = group ∧ x.Has .condition id
  | _ => False

/-- What becomes of the scroll target when a call leads from `s` to `t`. -/
inductive Aim (s : Session) (c : Call) (t : Session) : Prop
  | dropped : t.scrollTarget = none → Aim s c t
  | taken {id : NodeId} : t.scrollTarget = some id → t.root.Has .condition id → Aim s c t
  | kept : t.scrollTarget = s.scrollTarget →
      (∀ id, s.root.Has .condition id → Deletes s id c ∨ t.root.Has .condition id) → Aim s c t

section
variable {α : Type} {s t : Session} {c : Call} {o : Outcome α} {a : α}

theorem aim_self (s : Session) (c : Call) : Aim s c s := .kept rfl fun _ has => .inr has

theorem aim_of_refused (gives : o.Gives a s) : Aim s c o.session := by
  rw [gives.session]
  exact aim_self s c

/-- Judging makes no difference to the target. -/
theorem aim_of_done (gives : o.Gives a t.revalidate.session) (aim : Aim s c t) :
    Aim s c o.session := by
  rw [gives.session, revalidate_session]
  cases aim with
  | dropped none => exact .dropped none
  | taken target has => exact .taken target has
  | kept target has => exact .kept target has

end

/-! ## Calls -/

/-- A node that is taken out takes no other conditions along than those in it. -/
theorem has_or_deleted {g g' : Group} {kind : Kind} {id origin own : NodeId} {item : Item}
    (h : g.detach kind own = some (g', origin, item)) (has : g.Has .condition id) :
    (∃ c ∈ item.leaves, c.id = id) ∨ g'.Has .condition id := by
  obtain ⟨c, hc, same⟩ := has
  obtain within | left := List.mem_append.1 ((detach_leaves h).mem_iff.1 hc)
  · exact .inl ⟨c, within, same⟩
  · exact .inr ⟨c, left, same⟩

theorem deleteCondition_aim (s : Session) (own : NodeId) :
    Aim s (.deleteCondition own) (s.deleteCondition own).session := by
  obtain ⟨-, refused⟩ | ⟨g, origin, item, detached, deleted⟩ := deleteCondition_cases s own
  · exact aim_of_refused refused
  · refine aim_of_done deleted (.kept rfl fun id has => ?_)
    refine (has_or_deleted detached has).imp_left ?_
    rintro ⟨c, hc, rfl⟩
    have ref := detach_ref detached
    cases item with
    | condition c' =>
      obtain rfl := List.mem_singleton.1 hc
      exact (congrArg ChildRef.id ref).symm
    | group x => cases congrArg ChildRef.kind ref

theorem deleteGroup_aim (s : Session) (group : NodeId) :
    Aim s (.deleteGroup group) (s.deleteGroup group).session := by
  obtain ⟨-, refused⟩ | ⟨g, origin, item, other, detached, deleted⟩ := deleteGroup_cases s group
  · exact aim_of_refused refused
  · refine aim_of_done deleted (.kept rfl fun id has => ?_)
    refine (has_or_deleted detached has).imp_left fun within => ?_
    cases item with
    | condition c' => cases congrArg ChildRef.kind (detach_ref detached)
    | group x =>
      obtain ⟨hx, named⟩ := mem_of_detach detached
      exact ⟨other, x, hx, named, within⟩

theorem relocate_aim {s : Session} (hs : s.Sound) (c : Call) {kind : Kind} {id : NodeId}
    {d : Destination} {o : Outcome Bool}
    (move : ∀ {b t}, (s.relocate kind id d).Gives b t → o.Gives b t) : Aim s c o.session := by
  obtain ⟨-, refused⟩ | ⟨rest, origin, item, g, -, -, detached, inserted, moved⟩ :=
    relocate_cases hs kind id d
  · exact aim_of_refused (move refused)
  · refine aim_of_done (move moved) (.kept rfl fun id has => .inr ?_)
    obtain ⟨c, hc, same⟩ := has
    exact ⟨c, (insert_leaves inserted).mem_iff.2 ((detach_leaves detached).mem_iff.1 hc), same⟩

theorem load_aim (s : Session) (c : Call) (text : String) : Aim s c (s.load text).session := by
  cases blank : Text.isBlank text with
  | true =>
    rw [load, if_pos blank]
    exact .dropped rfl
  | false =>
    cases checked : Validation.checkText s.fields text with
    | ok e =>
      rw [(load_of_ok blank checked).2]
      exact .dropped rfl
    | error fault =>
      rw [(load_of_error blank checked).2]
      exact .kept rfl fun _ has => .inr has

theorem setTab_aim (s : Session) (c : Call) (tab : Tab) : Aim s c (s.setTab tab).session := by
  by_cases same : tab = s.tab
  · unfold setTab
    rw [if_pos same]
    exact aim_self s c
  · rw [setTab_session same]
    cases tab with
    | json => exact aim_of_done ⟨rfl, rfl⟩ (.kept rfl fun _ has => .inr has)
    | constructor =>
      cases blank : Text.isBlank s.text with
      | true =>
        rw [openConstructor, if_pos blank]
        exact .dropped rfl
      | false =>
        cases checked : Validation.checkText s.fields s.text with
        | ok e =>
          rw [(openConstructor_of_ok blank checked).2]
          exact .dropped rfl
        | error fault =>
          rw [(openConstructor_of_error blank checked).2]
          exact .kept rfl fun _ has => .inr has

/-- Every call drops the scroll target, makes a new condition the target, or keeps the target; then
it keeps all conditions but those that it deletes. -/
theorem perform_aim {s : Session} (hs : s.Sound) (c : Call) : Aim s c (s.perform c).session := by
  cases c with
  | addCondition today group =>
    obtain ⟨-, refused⟩ | ⟨g, -, inserted, added⟩ := addCondition_cases s today group
    · exact aim_of_refused (refused.map Reply.node)
    · refine aim_of_done (added.map Reply.node)
        (.taken rfl ⟨s.newCondition today, ?_, newCondition_id s today⟩)
      exact (insert_leaves inserted).mem_iff.2 List.mem_cons_self
  | addGroup parent j =>
    obtain ⟨-, refused⟩ | ⟨-, g, -, -, -, inserted, added⟩ := addGroup_cases s parent j
    · exact aim_of_refused (refused.map Reply.node)
    · exact aim_of_done (added.map Reply.node)
        (.kept rfl fun _ has => .inr (insert_has_condition inserted has))
  | updateCondition id patch =>
    obtain ⟨-, refused⟩ | ⟨g, modified, updated⟩ := updateCondition_cases s id patch
    · exact aim_of_refused (refused.map Reply.flag)
    · refine aim_of_done (updated.map Reply.flag) (.kept rfl fun _ has => .inr ?_)
      exact modifyCondition_has_condition (f := Condition.apply patch) (fun _ => rfl) modified has
  | updateGroup id j =>
    obtain ⟨-, refused⟩ | ⟨g, modified, updated⟩ := updateGroup_cases s id j
    · exact aim_of_refused (refused.map Reply.flag)
    · exact aim_of_done (updated.map Reply.flag)
        (.kept rfl fun _ has => .inr (rejoin_has_condition modified has))
  | deleteCondition own => exact deleteCondition_aim s own
  | deleteGroup group => exact deleteGroup_aim s group
  | moveCondition | moveGroup => exact relocate_aim hs _ fun moved => moved
  | moveItem => exact relocate_aim hs _ moveItem_gives
  | drop d =>
    obtain refused | ⟨_, -, move⟩ := drop_cases s d
    · exact aim_of_refused (refused.map Reply.flag)
    · exact relocate_aim hs _ move
  | clear => exact aim_of_done ⟨rfl, rfl⟩ (.dropped rfl)
  | load text => exact load_aim s _ text
  | setTab tab => exact setTab_aim s _ tab
  | setText text => exact aim_of_done ⟨rfl, rfl⟩ (.kept rfl fun _ has => .inr has)
  | revalidate => exact aim_of_done ⟨rfl, rfl⟩ (.kept rfl fun _ has => .inr has)
  | takeScrollTarget => exact .dropped rfl

/-! ## Runs -/

theorem start_aim (fields : List Field) (preferences : Preferences) (initial : Option String)
    (c : Call) : Aim (blank fields preferences) c (start fields preferences initial).session := by
  unfold start
  split
  · exact .dropped rfl
  · split
    · exact .dropped rfl
    · exact load_aim _ c _

/-- A scroll target that is not there was deleted. -/
theorem Reachable.deleted {s : Session} (h : Reachable s) {id : NodeId}
    (pending : s.scrollTarget = some id) (gone : ¬ s.root.Has .condition id) :
    ∃ r c, Reachable r ∧ r.scrollTarget = some id ∧ r.root.Has .condition id ∧ Deletes r id c ∧
      Leads (r.perform c).session s := by
  induction h with
  | start fields preferences initial =>
    cases start_aim fields preferences initial .clear with
    | dropped none => cases none.symm.trans pending
    | taken target has =>
      obtain rfl := Option.some.inj (target.symm.trans pending)
      exact absurd has gone
    | kept target => cases target.symm.trans pending
  | @call s c proper hs ih =>
    cases perform_aim hs.sound c with
    | dropped none => cases none.symm.trans pending
    | taken target has =>
      obtain rfl := Option.some.inj (target.symm.trans pending)
      exact absurd has gone
    | kept target has =>
      have before := target.symm.trans pending
      by_cases there : s.root.Has .condition id
      · obtain deletes | kept := has id there
        · exact ⟨s, c, hs, before, there, deletes, .refl⟩
        · exact absurd kept gone
      · obtain ⟨r, c', hr, was, held, deletes, run⟩ := ih before there
        exact ⟨r, c', hr, was, held, deletes, .call c proper run⟩

/-- A condition that is deleted leaves the outline. -/
theorem gone_of_deletes {s : Session} (hs : s.Sound) {id : NodeId} {c : Call}
    (has : s.root.Has .condition id) (deletes : Deletes s id c) :
    id ∉ (s.perform c).session.root.ids := by
  have unique := hs.intact.unique
  cases c with
  | deleteCondition own =>
    obtain rfl : own = id := deletes
    obtain ⟨impossible, -⟩ | ⟨g, origin, item, detached, deleted⟩ := deleteCondition_cases s own
    · exact absurd has impossible
    · have same : item.id = own := congrArg ChildRef.id (detach_ref detached)
      have session : (s.perform (.deleteCondition own)).session = _ := deleted.session
      rw [session, revalidate_session]
      exact ids_apart_of_detach unique detached (same ▸ item.id_mem_ids)
  | deleteGroup group =>
    obtain ⟨other, x, hx, named, c, hc, same⟩ := deletes
    obtain ⟨impossible, -⟩ | ⟨g, origin, item, -, detached, deleted⟩ := deleteGroup_cases s group
    · exact absurd ⟨⟨x, hx, named⟩, other⟩ impossible
    · have session : (s.perform (.deleteGroup group)).session = _ := deleted.session
      rw [session, revalidate_session]
      refine ids_apart_of_detach unique detached ?_
      cases item with
      | condition c' => cases congrArg ChildRef.kind (detach_ref detached)
      | group y =>
        obtain ⟨hy, named'⟩ := mem_of_detach detached
        obtain rfl := eq_of_id unique hx hy (named.trans named'.symm)
        have has : x.Has .condition id := ⟨c, hc, same⟩
        exact has.mem_ids
  | _ => exact deletes.elim

/-- In every reachable session, a scroll target is not among the conditions exactly if it was
deleted, by itself or with a group around it, while it was the target. -/
theorem scrollTarget_gone_iff {s : Session} (h : Reachable s) {id : NodeId}
    (pending : (s.perform .takeScrollTarget).result = .node (some id)) :
    ¬ s.root.Has .condition id ↔
      ∃ r c, Reachable r ∧ r.scrollTarget = some id ∧ r.root.Has .condition id ∧ Deletes r id c ∧
        Leads (r.perform c).session s := by
  have target : s.scrollTarget = some id := Reply.node.inj pending
  constructor
  · exact h.deleted target
  · rintro ⟨r, c, hr, -, has, deletes, run⟩ back
    have gone := gone_of_deletes hr.sound has deletes
    have proper : c.Proper := by
      cases c with
      | updateCondition => exact deletes.elim
      | _ => trivial
    -- the id was drawn before the deletion, so it does not come back
    have drawn : id < (r.perform c).session.next :=
      Nat.lt_of_lt_of_le (hr.sound.drawn id has.mem_ids)
        (step_sound hr.sound (perform_step hr.sound proper)).2.next
    exact (run.continues (.call c proper hr)).gone drawn gone back.mem_ids

/-- The condition `2` is added to the root and deleted. -/
def deletedTarget : Session := after [adding, .deleteCondition 2]

theorem reachable_deletedTarget : Reachable deletedTarget :=
  .call (.deleteCondition 2) trivial (.call adding trivial (.start ..))

theorem deletedTarget_gone : ¬ deletedTarget.root.Has .condition 2 := fun has => by
  have absent : 2 ∉ deletedTarget.root.ids := by decide
  exact absent has.mem_ids

/-- The condition `2` is gone, and still the target; it was there when it was deleted. -/
theorem scrollTarget_gone_iff_deleted : Reachable deletedTarget ∧
    (deletedTarget.perform .takeScrollTarget).result = .node (some 2) ∧
    (∃ r c, Reachable r ∧ r.scrollTarget = some 2 ∧ r.root.Has .condition 2 ∧ Deletes r 2 c ∧
      Leads (r.perform c).session deletedTarget) ∧
    ¬ deletedTarget.root.Has .condition 2 :=
  ⟨reachable_deletedTarget, rfl,
    (scrollTarget_gone_iff reachable_deletedTarget rfl).1 deletedTarget_gone, deletedTarget_gone⟩

/-- Not every scroll target is among the conditions. -/
theorem scrollTarget_left : ¬ ∀ s, Reachable s → ∀ id,
    (s.perform .takeScrollTarget).result = .node (some id) → s.root.Has .condition id :=
  fun all => deletedTarget_gone (all deletedTarget reachable_deletedTarget 2 rfl)

end FieldFilter.Session
