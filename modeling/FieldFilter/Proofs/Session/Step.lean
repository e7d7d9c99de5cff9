import FieldFilter.Proofs.Session.Calls

/-!
# Steps of a session

What a call does to a session comes down to a few cases: `Step` lists them, and `Change` what can
happen to the outline in one. Every call on a sound session is a step (`perform_step`) and so is the
start of a session (`start_step`), from the blank one.

Most calls only add, move and delete nodes. `Edit` is what they can make of the outline; the fields,
the preferences and the open tab stay (`perform_settled`).
-/

namespace FieldFilter.Session

/-- What a call can make of the outline that keeps conditions as they are, and the next id to draw
after it. -/
inductive Edit (s : Session) : Group → NodeId → Prop
  | addedCondition (today : Day) (group : NodeId) {g : Group} : s.root.size < Limits.treeNodes →
      s.root.modifyGroup group (Group.insertChild (.condition (s.newCondition today)) none) =
        some g →
      Edit s g (s.next + 1)
  | addedGroup (parent : NodeId) (j : Junction) {depth : Nat} {g : Group} :
      s.root.size < Limits.treeNodes → s.root.depth? parent = some depth →
      depth < s.preferences.maxNesting →
      s.root.modifyGroup parent (Group.insertChild (.group (.empty s.next j)) none) = some g →
      Edit s g (s.next + 1)
  | rejoined (id : NodeId) (j : Junction) {g : Group} :
      s.root.modifyGroup id (fun h => { h with junction := j }) = some g → Edit s g s.next
  | deleted (kind : Kind) (id : NodeId) {g : Group} {origin : NodeId} {item : Item} :
      (kind = .group → id ≠ s.root.id) → s.root.detach kind id = some (g, origin, item) →
      Edit s g s.next
  | moved (kind : Kind) (id : NodeId) (d : Destination) {rest g : Group} {origin : NodeId}
      {item : Item} : d.anchor ≠ some id → s.Admits kind id d.group →
      s.root.detach kind id = some (rest, origin, item) →
      rest.modifyGroup d.group
        (Group.insertChild item ((rest.findGroup? d.group).bind d.index?)) = some g →
      Edit s g s.next
  | cleared : Edit s s.freshRoot s.next

/-- What one call can make of the outline, and the next id to draw after it. -/
inductive Change (s : Session) : Group → NodeId → Prop
  | same : Change s s.root s.next
  | edited {g : Group} {n : NodeId} : Edit s g n → Change s g n
  | patched (id : NodeId) (patch : Patch) {g : Group} :
      (∀ v, patch.value = some (some v) → v.Proper) →
      s.root.modifyCondition id (Condition.apply patch) = some g → Change s g s.next
  | read {text : String} {e : Json} : Validation.checkText s.fields text = .ok e →
      Change s { (Reading.ofExpression e s.next).root with id := s.root.id }
        (Reading.ofExpression e s.next).next

/-- What a call does to a session. -/
inductive Step (s : Session) : Session → Prop
  | kept : Step s s
  | scrolled : Step s { s with scrollTarget := none }
  /-- The outline, the tab or the text changed, and what counts now was judged. -/
  | judged {t : Session} : t.fields = s.fields → t.preferences = s.preferences →
      Change s t.root t.next → Step s t.revalidate.session
  /-- A text that is no filter stays on the JSON tab. -/
  | rejected {text : String} {fault : Fault} : Text.isBlank text = false →
      Validation.checkText s.fields text = .error fault →
      Step s { s with tab := .json, text := text, verdict := .error fault }

/-- Whether a call was refused. -/
def Refuses : Reply → Prop
  | .flag b => b = false
  | .node id => id = none
  | .done => False

/-- What a call gives that edits the outline and keeps conditions as they are. -/
inductive Settled (s : Session) (o : Outcome Reply) : Prop
  | refused {r : Reply} : o.Gives r s → Refuses r → Settled s o
  | edited {r : Reply} {t : Session} : o.Gives r t.revalidate.session → ¬ Refuses r →
      t.fields = s.fields → t.preferences = s.preferences → t.tab = s.tab →
      Edit s t.root t.next → Settled s o

theorem Settled.step {s : Session} {o : Outcome Reply} (h : Settled s o) : Step s o.session := by
  cases h with
  | refused gives =>
    rw [gives.session]
    exact .kept
  | edited gives _ fields preferences _ edit =>
    rw [gives.session]
    exact .judged fields preferences (.edited edit)

/-! ## Calls that edit -/

theorem addCondition_settled (s : Session) (today : Day) (group : NodeId) :
    Settled s (s.perform (.addCondition today group)) := by
  obtain ⟨-, refused⟩ | ⟨g, room, inserted, added⟩ := addCondition_cases s today group
  · exact .refused (refused.map Reply.node) rfl
  · exact .edited (added.map Reply.node) nofun rfl rfl rfl
      (.addedCondition today group room inserted)

theorem addGroup_settled (s : Session) (parent : NodeId) (j : Junction) :
    Settled s (s.perform (.addGroup parent j)) := by
  obtain ⟨-, refused⟩ | ⟨depth, g, room, found, shallow, inserted, added⟩ :=
    addGroup_cases s parent j
  · exact .refused (refused.map Reply.node) rfl
  · exact .edited (added.map Reply.node) nofun rfl rfl rfl
      (.addedGroup parent j room found shallow inserted)

theorem updateGroup_settled (s : Session) (id : NodeId) (j : Junction) :
    Settled s (s.perform (.updateGroup id j)) := by
  obtain ⟨-, refused⟩ | ⟨g, modified, updated⟩ := updateGroup_cases s id j
  · exact .refused (refused.map Reply.flag) rfl
  · exact .edited (updated.map Reply.flag) nofun rfl rfl rfl (.rejoined id j modified)

theorem deleteCondition_settled (s : Session) (id : NodeId) :
    Settled s (s.perform (.deleteCondition id)) := by
  obtain ⟨-, refused⟩ | ⟨g, origin, item, detached, deleted⟩ := deleteCondition_cases s id
  · exact .refused (refused.map Reply.flag) rfl
  · exact .edited (deleted.map Reply.flag) nofun rfl rfl rfl (.deleted .condition id nofun detached)

theorem deleteGroup_settled (s : Session) (id : NodeId) :
    Settled s (s.perform (.deleteGroup id)) := by
  obtain ⟨-, refused⟩ | ⟨g, origin, item, other, detached, deleted⟩ := deleteGroup_cases s id
  · exact .refused (refused.map Reply.flag) rfl
  · exact .edited (deleted.map Reply.flag) nofun rfl rfl rfl
      (.deleted .group id (fun _ => other) detached)

/-- All moves give what `relocate` gives. -/
theorem move_settled {s : Session} (hs : s.Sound) {kind : Kind} {id : NodeId} {d : Destination}
    {o : Outcome Bool} (move : ∀ {b t}, (s.relocate kind id d).Gives b t → o.Gives b t) :
    Settled s (o.map .flag) := by
  obtain ⟨-, refused⟩ | ⟨rest, origin, item, g, other, admits, detached, inserted, moved⟩ :=
    relocate_cases hs kind id d
  · exact .refused ((move refused).map Reply.flag) rfl
  · exact .edited ((move moved).map Reply.flag) nofun rfl rfl rfl
      (.moved kind id d other admits detached inserted)

theorem drop_settled {s : Session} (hs : s.Sound) (d : Drop) : Settled s (s.perform (.drop d)) := by
  obtain refused | ⟨_, -, move⟩ := drop_cases s d
  · exact .refused (refused.map Reply.flag) rfl
  · exact move_settled hs move

theorem clear_settled (s : Session) : Settled s (s.perform .clear) :=
  .edited ⟨rfl, rfl⟩ (fun no => no) rfl rfl rfl .cleared

/-- The calls that edit the outline and keep conditions as they are. -/
def Structural : Call → Prop
  | .addCondition .. | .addGroup .. | .updateGroup .. | .deleteCondition _ | .deleteGroup _
  | .moveCondition .. | .moveGroup .. | .moveItem .. | .drop _ | .clear => True
  | _ => False

theorem perform_settled {s : Session} (hs : s.Sound) {c : Call} (h : Structural c) :
    Settled s (s.perform c) := by
  cases c with
  | addCondition today group => exact addCondition_settled s today group
  | addGroup parent j => exact addGroup_settled s parent j
  | updateGroup id j => exact updateGroup_settled s id j
  | deleteCondition id => exact deleteCondition_settled s id
  | deleteGroup id => exact deleteGroup_settled s id
  | moveCondition | moveGroup => exact move_settled hs fun moved => moved
  | moveItem => exact move_settled hs moveItem_gives
  | drop d => exact drop_settled hs d
  | clear => exact clear_settled s
  | updateCondition | load | setTab | setText | revalidate | takeScrollTarget => exact h.elim

/-! ## The other calls -/

theorem updateCondition_step (s : Session) (id : NodeId) {patch : Patch}
    (h : ∀ v, patch.value = some (some v) → v.Proper) :
    Step s (s.updateCondition id patch).session := by
  obtain ⟨-, refused⟩ | ⟨g, modified, updated⟩ := updateCondition_cases s id patch
  · rw [refused.session]
    exact .kept
  · rw [updated.session]
    exact .judged rfl rfl (.patched id patch h modified)

theorem construct_step (s : Session) {t : Session} {root : Group} (fields : t.fields = s.fields)
    (preferences : t.preferences = s.preferences)
    (change : Change s { root with id := t.root.id } t.next) :
    Step s (t.construct root).session :=
  .judged fields preferences change

theorem load_step (s : Session) (text : String) : Step s (s.load text).session := by
  unfold load
  split
  · exact construct_step s rfl rfl (.edited .cleared)
  · rename_i filled
    dsimp only
    split
    · rename_i fault checked
      exact .rejected (by simpa using filled) checked
    · rename_i e checked
      exact construct_step s rfl rfl (.read checked)

theorem openJson_step (s : Session) : Step s s.openJson.session :=
  .judged rfl rfl .same

theorem openConstructor_step (s : Session) (h : s.tab = .json) :
    Step s s.openConstructor.session := by
  unfold openConstructor
  split
  · exact construct_step s rfl rfl (.edited .cleared)
  · rename_i filled
    dsimp only
    split
    · rename_i fault checked
      have stays : { s with verdict := .error fault } =
          { s with tab := .json, text := s.text, verdict := .error fault } := by rw [← h]
      rw [stays]
      exact .rejected (by simpa using filled) checked
    · rename_i e checked
      exact construct_step s rfl rfl (.read checked)

/-- Another tab is opened by `openJson` or `openConstructor`. -/
theorem setTab_session {s : Session} {tab : Tab} (other : tab ≠ s.tab) :
    (s.setTab tab).session =
      (match tab with | .json => s.openJson | .constructor => s.openConstructor).session := by
  unfold setTab
  rw [if_neg other]
  cases tab <;> dsimp only <;> split <;> rfl

theorem setTab_step (s : Session) (tab : Tab) : Step s (s.setTab tab).session := by
  by_cases same : tab = s.tab
  · unfold setTab
    rw [if_pos same]
    exact .kept
  · rw [setTab_session same]
    cases tab with
    | json => exact openJson_step s
    | constructor =>
      refine openConstructor_step s ?_
      cases h : s.tab with
      | json => rfl
      | constructor => exact absurd h.symm same

theorem setText_step (s : Session) (text : String) : Step s (s.setText text).session :=
  .judged rfl rfl .same

/-- Every call on a sound session is a step. -/
theorem perform_step {s : Session} (hs : s.Sound) {c : Call} (h : c.Proper) :
    Step s (s.perform c).session := by
  cases c with
  | updateCondition id patch => exact updateCondition_step s id h
  | load text => exact load_step s text
  | setTab tab => exact setTab_step s tab
  | setText text => exact setText_step s text
  | revalidate => exact .judged rfl rfl .same
  | takeScrollTarget => exact .scrolled
  | _ =>
    refine (perform_settled hs ?_).step
    exact trivial

/-- The session that a start begins with. -/
def blank (fields : List Field) (preferences : Preferences) : Session :=
  ⟨fields, preferences, 2, .empty 1 .all, .constructor, "", .ok none, none⟩

theorem start_step (fields : List Field) (preferences : Preferences) (initial : Option String) :
    Step (blank fields preferences) (start fields preferences initial).session := by
  unfold start
  split
  · exact .judged rfl rfl .same
  · split
    · exact .judged rfl rfl .same
    · exact load_step _ _

end FieldFilter.Session
