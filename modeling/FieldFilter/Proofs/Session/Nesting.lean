import FieldFilter.Preferences.Document
import FieldFilter.Proofs.Session.Identity
import FieldFilter.Proofs.Validation.Outline

/-!
# How deep sessions nest

An edit makes the outline no higher than it was, or than the preferences let groups nest
(`edit_height`): a new group and a moved one are measured from the group they are put into, which
is found by its id. An outline that is read is no higher than filters may nest. So these two limits
bound the outline of every reachable session (`Reachable.height_le`). A run keeps its preferences,
and those that can be obtained let groups nest less deep than filters may; so on such runs outlines
are no higher than filters, and what is written of them has no fault in nesting (`run_nesting`).
-/

namespace FieldFilter.Session

open FieldFilter.Group

/-- The preferences let the group that is taken out nest below where its target stands without
it. -/
theorem moved_height {s : Session} {id target origin : NodeId} {rest x y : Group} {d : Nat}
    (hs : s.Sound) (admits : s.Admits .group id target)
    (detached : s.root.detach .group id = some (rest, origin, .group x)) (stands : Sits d y rest)
    (same : y.id = target) : d + 1 + x.height ≤ s.preferences.maxNesting := by
  obtain ⟨hx, named⟩ := mem_of_detach detached
  obtain ⟨depth, found, room⟩ := admits.room rfl x hx named
  -- the target stood there before, so this is the depth that is found for it
  obtain ⟨y', before, kept⟩ := sits_of_detach detached stands
  have stood := before.depth? hs.intact.unique
  rw [kept, same, found] at stood
  obtain rfl := Option.some.inj stood
  exact room

/-- An edit makes the outline no higher than the preferences let groups nest, unless it was. -/
theorem edit_height {s : Session} {g : Group} {n : NodeId} (hs : s.Sound) (h : Edit s g n) :
    g.height ≤ max s.root.height s.preferences.maxNesting := by
  cases h with
  | addedCondition today group _ inserted =>
    have unchanged := insert_condition_height inserted
    omega
  | addedGroup parent j _ found shallow inserted =>
    obtain ⟨d, x, stands, same, bound⟩ := insert_height inserted
    have depth := stands.depth? hs.intact.unique
    rw [same, found] at depth
    obtain rfl := Option.some.inj depth
    have one : (Group.empty s.next j).height = 1 := rfl
    simp only [Item.height, one] at bound
    omega
  | rejoined id j modified =>
    have unchanged := rejoin_height modified
    omega
  | deleted kind id _ detached =>
    have lower := detach_height detached
    omega
  | @moved kind id d rest _ origin item _ admits detached inserted =>
    cases item with
    | condition c =>
      obtain rfl : .condition = kind := congrArg ChildRef.kind (detach_ref detached)
      have unchanged := move_condition_height detached inserted
      omega
    | group x =>
      obtain rfl : .group = kind := congrArg ChildRef.kind (detach_ref detached)
      obtain ⟨n, y, stands, same, bound⟩ := insert_height inserted
      have lower := detach_height detached
      have allowed := moved_height hs admits detached stands same
      simp only [Item.height] at bound
      omega
  | cleared =>
    have one : s.freshRoot.height = 1 := rfl
    have pos := s.root.height_pos
    omega

/-- No group nests deeper than the preferences or the filters allow. -/
def Bounded (s : Session) : Prop :=
  s.root.height ≤ max s.preferences.maxNesting Limits.filterNesting

theorem change_bounded {s : Session} {g : Group} {n : NodeId} (hs : s.Sound) (hb : s.Bounded)
    (h : Change s g n) : g.height ≤ max s.preferences.maxNesting Limits.filterNesting := by
  unfold Bounded at hb
  cases h with
  | same => exact hb
  | edited edit =>
    have edited := edit_height hs edit
    omega
  | patched id patch _ modified =>
    have unchanged := modifyCondition_height modified
    omega
  | @read text e checked =>
    obtain ⟨-, -, accepted⟩ := Validation.checkText_iff.1 checked
    have low := Reading.height_ofExpression accepted s.next
    have same : { (Reading.ofExpression e s.next).root with id := s.root.id }.height =
        (Reading.ofExpression e s.next).root.height := height_congr rfl
    omega

theorem step_bounded {s t : Session} (hs : s.Sound) (hb : s.Bounded) (h : Step s t) :
    t.Bounded := by
  cases h with
  | kept => exact hb
  | scrolled => exact hb
  | judged _ preferences change =>
    rw [revalidate_session, Bounded]
    simp only [preferences]
    exact change_bounded hs hb change
  | rejected => exact hb

/-- No group of a reachable session nests deeper than its preferences or the filters allow. -/
theorem Reachable.height_le {s : Session} (h : Reachable s) :
    s.root.height ≤ max s.preferences.maxNesting Limits.filterNesting := by
  refine h.of_step (P := Bounded) ?_ step_bounded
  intro fields preferences
  have one : (Group.empty 1 .all).height = 1 := rfl
  have limit : Limits.filterNesting = 32 := rfl
  simp only [Bounded, blank, one]
  omega

/-! ## Calls -/

theorem perform_height {s : Session} (hs : s.Sound) {c : Call} (h : Structural c) :
    (s.perform c).session.root.height ≤ max s.root.height s.preferences.maxNesting := by
  cases perform_settled hs h with
  | refused gives =>
    rw [gives.session]
    exact Nat.le_max_left ..
  | edited gives _ _ _ _ edit =>
    rw [gives.session, revalidate_session]
    exact edit_height hs edit

/-- Calls that bring no group below another one. -/
def Level : Call → Prop
  | .addCondition .. | .updateCondition .. | .updateGroup .. | .deleteCondition _ | .deleteGroup _
  | .moveCondition .. => True
  | .moveItem kind .. => kind = .condition
  | .drop d => d.dragged.kind = .condition
  | _ => False

section
variable {α : Type} {s t : Session} {o : Outcome α} {a : α}

theorem height_of_refused (gives : o.Gives a s) : o.session.root.height ≤ s.root.height := by
  rw [gives.session]

theorem height_of_done (gives : o.Gives a t.revalidate.session)
    (low : t.root.height ≤ s.root.height) : o.session.root.height ≤ s.root.height := by
  rw [gives.session, revalidate_session]
  exact low

end

theorem move_condition_level {s : Session} (hs : s.Sound) {id : NodeId} {d : Destination}
    {o : Outcome Bool} (move : ∀ {b t}, (s.relocate .condition id d).Gives b t → o.Gives b t) :
    o.session.root.height ≤ s.root.height := by
  obtain ⟨-, refused⟩ | ⟨rest, origin, item, g, -, -, detached, inserted, moved⟩ :=
    relocate_cases hs .condition id d
  · exact height_of_refused (move refused)
  · exact height_of_done (move moved) (move_condition_height detached inserted)

theorem drop_level {s : Session} (hs : s.Sound) {d : Drop}
    (condition : d.dragged.kind = .condition) :
    (s.drop d).session.root.height ≤ s.root.height := by
  obtain refused | ⟨_, -, move⟩ := drop_cases s d
  · exact height_of_refused refused
  · rw [condition] at move
    exact move_condition_level hs move

theorem perform_level {s : Session} (hs : s.Sound) {c : Call} (h : Level c) :
    (s.perform c).session.root.height ≤ s.root.height := by
  cases c with
  | addCondition today group =>
    obtain ⟨-, refused⟩ | ⟨g, -, inserted, added⟩ := addCondition_cases s today group
    · exact height_of_refused (refused.map Reply.node)
    · exact height_of_done (added.map Reply.node) (insert_condition_height inserted)
  | updateCondition id patch =>
    obtain ⟨-, refused⟩ | ⟨g, modified, updated⟩ := updateCondition_cases s id patch
    · exact height_of_refused (refused.map Reply.flag)
    · exact height_of_done (updated.map Reply.flag) (modifyCondition_height modified)
  | updateGroup id j =>
    obtain ⟨-, refused⟩ | ⟨g, modified, updated⟩ := updateGroup_cases s id j
    · exact height_of_refused (refused.map Reply.flag)
    · exact height_of_done (updated.map Reply.flag) (rejoin_height modified)
  | deleteCondition id =>
    obtain ⟨-, refused⟩ | ⟨g, origin, item, detached, deleted⟩ := deleteCondition_cases s id
    · exact height_of_refused (refused.map Reply.flag)
    · exact height_of_done (deleted.map Reply.flag) (detach_height detached)
  | deleteGroup id =>
    obtain ⟨-, refused⟩ | ⟨g, origin, item, -, detached, deleted⟩ := deleteGroup_cases s id
    · exact height_of_refused (refused.map Reply.flag)
    · exact height_of_done (deleted.map Reply.flag) (detach_height detached)
  | moveCondition => exact move_condition_level hs fun moved => moved
  | moveItem kind =>
    obtain rfl : kind = .condition := h
    exact move_condition_level hs moveItem_gives
  | drop => exact drop_level hs h
  | addGroup | moveGroup | clear | load | setTab | setText | revalidate | takeScrollTarget =>
    exact h.elim

/-! ## Runs -/

theorem step_preferences {s t : Session} (h : Step s t) : t.preferences = s.preferences := by
  cases h with
  | kept => rfl
  | scrolled => rfl
  | judged _ preferences =>
    rw [revalidate_session]
    exact preferences
  | rejected => rfl

theorem Leads.preferences {s t : Session} (h : Leads s t) (hs : Reachable s) :
    t.preferences = s.preferences := by
  induction h with
  | refl => rfl
  | call c proper h ih =>
    exact (step_preferences (perform_step (h.reachable hs).sound proper)).trans ih

/-- Preferences that are obtained in an environment: its defaults, or what a document sets over
them. -/
def Obtained (env : Environment) (p : Preferences) : Prop :=
  p = .ofEnvironment env ∨ ∃ text, Preferences.read (.ofEnvironment env) text = .ok p

/-- Defaults are brought into the range for nesting, and documents are refused outside of it. -/
theorem Obtained.check {env : Environment} {p : Preferences} (h : Obtained env p) :
    p.check = .ok () := by
  obtain rfl | ⟨text, read⟩ := h
  · exact Preferences.check_ofEnvironment env
  · unfold Preferences.read at read
    split at read
    · cases read
    · split at read
      · rename_i checked
        obtain rfl := Except.ok.inj read
        exact checked
      · cases read

theorem Obtained.range {env : Environment} {p : Preferences} (h : Obtained env p) :
    0 < p.maxNesting ∧ p.maxNesting ≤ Limits.editorNesting := by
  have checked := h.check
  unfold Preferences.check at checked
  split at checked
  · cases checked
  · omega

/-- On every run with preferences that can be obtained, no call that edits makes the outline higher
than the preferences let groups nest, unless it was, and no call makes it higher that only changes,
deletes, or brings conditions to other places. The outline is never higher than filters may nest,
so what is written of it never has a fault in nesting. -/
theorem run_nesting {env : Environment} {p : Preferences} (obtained : Obtained env p)
    {fields : List Field} {initial : Option String} {s : Session}
    (run : Leads (start fields p initial).session s) :
    (∀ c, Structural c →
      (s.perform c).session.root.height ≤ max s.root.height p.maxNesting) ∧
    (∀ c, Level c → (s.perform c).session.root.height ≤ s.root.height) ∧
    s.root.height ≤ Limits.filterNesting ∧
    ∀ e, s.root.expression? = some e → ∀ fields depth limit,
      Validation.check fields e ≠ .error (.nestingTooDeep depth limit) := by
  have first : Reachable (start fields p initial).session := .start ..
  have reachable := run.reachable first
  have kept : s.preferences = p :=
    (run.preferences first).trans (step_preferences (start_step fields p initial))
  obtain ⟨-, most⟩ := obtained.range
  have less : Limits.editorNesting ≤ Limits.filterNesting := by decide
  have bound := reachable.height_le
  rw [kept] at bound
  have low : s.root.height ≤ Limits.filterNesting := by omega
  refine ⟨fun c edits => ?_, fun c level => perform_level reachable.sound level, low,
    fun e written fields => check_ne_nesting low written⟩
  rw [← kept]
  exact perform_height reachable.sound edits

/-- A session that starts with three nested groups, where the environment lets two nest. -/
def deeper : Session :=
  (start [⟨"name", .string, none, none⟩] (.ofEnvironment ⟨some "2", none, none⟩)
    (some "[\"all\",[\"any\",[\"all\",[\"has\",[\"get\",\"name\"]]]]]")).session

/-- A group can be added to the root, but to none of the other groups, and the height stays. -/
theorem run_nesting_deeper : deeper.preferences.maxNesting = 2 ∧ deeper.root.height = 3 ∧
    (deeper.perform (.addGroup 1 .any)).result = .node (some 6) ∧
    (deeper.perform (.addGroup 1 .any)).session.root.height ≤ 3 ∧
    (deeper.perform (.deleteGroup 3)).result = .flag true ∧
    (deeper.perform (.deleteGroup 3)).session.root.height ≤ 3 ∧
    deeper.root.expression?.isSome = true ∧
    ∀ e, deeper.root.expression? = some e →
      Validation.check [] e ≠ .error (.nestingTooDeep 33 Limits.filterNesting) := by
  have height : deeper.root.height = 3 := by decide +kernel
  have defaults : Obtained ⟨some "2", none, none⟩ (.ofEnvironment ⟨some "2", none, none⟩) :=
    .inl rfl
  have started : Leads deeper deeper := .refl
  obtain ⟨edits, level, -, nested⟩ := run_nesting defaults started
  have added := edits (.addGroup 1 .any) trivial
  have deleted := level (.deleteGroup 3) trivial
  rw [height] at added deleted
  exact ⟨by decide +kernel, height, by decide +kernel, added, by decide +kernel, deleted,
    by decide +kernel, fun e written => nested e written [] 33 Limits.filterNesting⟩

end FieldFilter.Session
