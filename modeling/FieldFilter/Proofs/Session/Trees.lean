import FieldFilter.Proofs.Outline.Tree
import FieldFilter.Proofs.Session.Identity

/-!
# Edits on the ordered tree

Calls that add, change and delete nodes do to the tree of the outline what they are asked for, at
one place, whenever the tree allows it (`edits_refine_tree`). Where this place is there is no doubt,
as the ids of the tree differ.
-/

namespace FieldFilter.Session

open FieldFilter.Group

/-- A call succeeds exactly if it is possible, and gives then what it should: an answer, and the
tree of the outline after it. -/
structure CarriesOut (s : Session) (c : Call) (possible : Prop) (makes : Reply → Tree → Prop) :
    Prop where
  succeeds : ¬ Refuses (s.perform c).result ↔ possible
  makes : possible → makes (s.perform c).result (s.perform c).session.root.tree

section
variable {s t : Session} {c : Call} {possible : Prop} {makes : Reply → Tree → Prop} {r : Reply}

theorem carriesOut_of_refused (gives : (s.perform c).Gives r s) (refused : Refuses r)
    (impossible : ¬ possible) : CarriesOut s c possible makes where
  succeeds := by
    rw [gives.result]
    exact iff_of_false (fun done => done refused) impossible
  makes := fun can => absurd can impossible

theorem carriesOut_of_done (gives : (s.perform c).Gives r t.revalidate.session)
    (done : ¬ Refuses r) (can : possible) (made : makes r t.root.tree) :
    CarriesOut s c possible makes where
  succeeds := by
    rw [gives.result]
    exact iff_of_true done can
  makes := by
    intro _
    rw [gives.result, gives.session, revalidate_session]
    exact made

end

/-- The condition that is added: the first field equals the default value of its type. Without
fields it is on no field and has no value. -/
inductive First (today : Day) (id : NodeId) : List Field → Condition → Prop
  | field (f : Field) (rest : List Field) :
      First today id (f :: rest) ⟨id, f.key, .equal, some (f.type.defaultValue today)⟩
  | blank : First today id [] ⟨id, "", .equal, none⟩

/-- The condition `c'` is `c` with the parts that the patch sets. -/
structure Patched (patch : Patch) (c c' : Condition) : Prop where
  id : c'.id = c.id
  field : ∀ key, patch.field = some key → c'.field = key
  fieldKept : patch.field = none → c'.field = c.field
  op : ∀ op, patch.op = some op → c'.op = op
  opKept : patch.op = none → c'.op = c.op
  value : ∀ v, patch.value = some v → c'.value = v
  valueKept : patch.value = none → c'.value = c.value

theorem First.id_eq {today : Day} {id : NodeId} {fields : List Field} {c : Condition}
    (h : First today id fields c) : c.id = id := by
  cases h <;> rfl

theorem first_newCondition (s : Session) (today : Day) :
    First today s.next s.fields (s.newCondition today) := by
  unfold newCondition
  cases s.fields with
  | nil => exact .blank
  | cons f rest => exact .field f rest

theorem patched_apply (patch : Patch) (c : Condition) : Patched patch c (c.apply patch) where
  id := rfl
  field := fun key set => by simp [Condition.apply, set]
  fieldKept := fun unset => by simp [Condition.apply, unset]
  op := fun op set => by simp [Condition.apply, set]
  opKept := fun unset => by simp [Condition.apply, unset]
  value := fun v set => by simp [Condition.apply, set]
  valueKept := fun unset => by simp [Condition.apply, unset]

/-! ## Calls -/

section
variable {s : Session}

/-- The tree has room for a node more. -/
def Roomy (s : Session) : Prop := s.root.tree.nodes.length < Limits.treeNodes

theorem roomy_iff (hs : s.Sound) : s.Roomy ↔ s.root.size < Limits.treeNodes := by
  rw [Roomy, length_nodes_tree hs.intact]

theorem addCondition_carriesOut (hs : s.Sound) (today : Day) (target : NodeId) :
    CarriesOut s (.addCondition today target) (s.Roomy ∧ s.root.tree.Has .group target) fun r t =>
      ∃ id c, r = .node (some id) ∧ id ∉ s.root.tree.nodes.map Tree.id ∧
        First today id s.fields c ∧ Tree.Appended target (.condition c) s.root.tree t := by
  rw [roomy_iff hs, has_tree hs.intact]
  obtain ⟨impossible, refused⟩ | ⟨g, room, inserted, added⟩ := addCondition_cases s today target
  · exact carriesOut_of_refused (refused.map Reply.node) rfl impossible
  · refine carriesOut_of_done (added.map Reply.node) nofun
      ⟨room, exists_modifyGroup_iff.1 ⟨g, inserted⟩⟩ ?_
    have first := first_newCondition s today
    refine ⟨s.next, s.newCondition today, rfl, ?_, first, append_tree hs.intact ?_ inserted⟩
    · rw [(ids_tree hs.intact).mem_iff]
      exact next_not_mem hs
    · intro id hid
      rw [Item.ids, first.id_eq, List.mem_singleton] at hid
      exact hid ▸ next_not_mem hs

theorem addGroup_carriesOut (hs : s.Sound) (target : NodeId) (j : Junction) :
    CarriesOut s (.addGroup target j) (s.Roomy ∧ s.root.tree.Has .group target ∧
        ∃ depth, s.root.depth? target = some depth ∧ depth < s.preferences.maxNesting) fun r t =>
      ∃ id, r = .node (some id) ∧ id ∉ s.root.tree.nodes.map Tree.id ∧
        Tree.Appended target (.group id j []) s.root.tree t := by
  rw [roomy_iff hs, has_tree hs.intact]
  obtain ⟨impossible, refused⟩ | ⟨depth, g, room, found, shallow, inserted, added⟩ :=
    addGroup_cases s target j
  · refine carriesOut_of_refused (refused.map Reply.node) rfl ?_
    exact fun possible => impossible ⟨possible.1, possible.2.2⟩
  · refine carriesOut_of_done (added.map Reply.node) nofun
      ⟨room, exists_modifyGroup_iff.1 ⟨g, inserted⟩, depth, found, shallow⟩ ?_
    refine ⟨s.next, rfl, ?_, append_tree hs.intact ?_ inserted⟩
    · rw [(ids_tree hs.intact).mem_iff]
      exact next_not_mem hs
    · intro id hid
      obtain rfl := List.mem_singleton.1 hid
      exact next_not_mem hs

theorem updateCondition_carriesOut (hs : s.Sound) (id : NodeId) (patch : Patch) :
    CarriesOut s (.updateCondition id patch) (s.root.tree.Has .condition id) fun _ t =>
      ∃ c c', c.id = id ∧ Patched patch c c' ∧
        Tree.Replaced (.condition c) (.condition c') s.root.tree t := by
  rw [has_tree hs.intact]
  obtain ⟨impossible, refused⟩ | ⟨g, modified, updated⟩ := updateCondition_cases s id patch
  · exact carriesOut_of_refused (refused.map Reply.flag) rfl impossible
  · refine carriesOut_of_done (updated.map Reply.flag) nofun
      (exists_modifyCondition_iff.1 ⟨g, modified⟩) ?_
    obtain ⟨c, named, changed⟩ :=
      modifyCondition_tree (f := Condition.apply patch) (fun _ => rfl) hs.intact modified
    exact ⟨c, c.apply patch, named, patched_apply patch c, changed⟩

theorem updateGroup_carriesOut (hs : s.Sound) (id : NodeId) (j : Junction) :
    CarriesOut s (.updateGroup id j) (s.root.tree.Has .group id) fun _ t =>
      Tree.Rejoined id j s.root.tree t := by
  rw [has_tree hs.intact]
  obtain ⟨impossible, refused⟩ | ⟨g, modified, updated⟩ := updateGroup_cases s id j
  · exact carriesOut_of_refused (refused.map Reply.flag) rfl impossible
  · exact carriesOut_of_done (updated.map Reply.flag) nofun
      (exists_modifyGroup_iff.1 ⟨g, modified⟩) (rejoin_tree hs.intact modified)

theorem deleteCondition_carriesOut (hs : s.Sound) (id : NodeId) :
    CarriesOut s (.deleteCondition id) (s.root.tree.Has .condition id) fun _ t =>
      Tree.Removed .condition id s.root.tree t := by
  rw [has_tree hs.intact]
  obtain ⟨impossible, refused⟩ | ⟨g, origin, item, detached, deleted⟩ := deleteCondition_cases s id
  · exact carriesOut_of_refused (refused.map Reply.flag) rfl impossible
  · exact carriesOut_of_done (deleted.map Reply.flag) nofun (has_of_detach detached)
      (detach_tree hs.intact detached)

theorem deleteGroup_carriesOut (hs : s.Sound) (id : NodeId) :
    CarriesOut s (.deleteGroup id) (s.root.tree.Has .group id ∧ id ≠ s.root.tree.id) fun _ t =>
      Tree.Removed .group id s.root.tree t := by
  rw [has_tree hs.intact, tree_id]
  obtain ⟨impossible, refused⟩ | ⟨g, origin, item, other, detached, deleted⟩ :=
    deleteGroup_cases s id
  · exact carriesOut_of_refused (refused.map Reply.flag) rfl impossible
  · exact carriesOut_of_done (deleted.map Reply.flag) nofun ⟨has_of_detach detached, other⟩
      (detach_tree hs.intact detached)

end

/-- In every reachable session the ids of the tree differ, and these calls do to the tree what they
are asked for. A new condition or an empty group comes last into a group, if the tree has room and,
for a group, the preferences let it nest there; an update changes those parts of a condition that
are set, or the junction of a group; a deleted node goes with all below it, the root stays. Each
fails only if it cannot be done. -/
theorem edits_refine_tree {s : Session} (h : Reachable s) :
    (s.root.tree.nodes.map Tree.id).Nodup ∧
    (∀ today target, CarriesOut s (.addCondition today target)
      (s.Roomy ∧ s.root.tree.Has .group target) fun r t =>
        ∃ id c, r = .node (some id) ∧ id ∉ s.root.tree.nodes.map Tree.id ∧
          First today id s.fields c ∧ Tree.Appended target (.condition c) s.root.tree t) ∧
    (∀ target j, CarriesOut s (.addGroup target j)
      (s.Roomy ∧ s.root.tree.Has .group target ∧
        ∃ depth, s.root.depth? target = some depth ∧ depth < s.preferences.maxNesting) fun r t =>
        ∃ id, r = .node (some id) ∧ id ∉ s.root.tree.nodes.map Tree.id ∧
          Tree.Appended target (.group id j []) s.root.tree t) ∧
    (∀ id patch, CarriesOut s (.updateCondition id patch) (s.root.tree.Has .condition id) fun _ t =>
      ∃ c c', c.id = id ∧ Patched patch c c' ∧
        Tree.Replaced (.condition c) (.condition c') s.root.tree t) ∧
    (∀ id j, CarriesOut s (.updateGroup id j) (s.root.tree.Has .group id) fun _ t =>
      Tree.Rejoined id j s.root.tree t) ∧
    (∀ id, CarriesOut s (.deleteCondition id) (s.root.tree.Has .condition id) fun _ t =>
      Tree.Removed .condition id s.root.tree t) ∧
    (∀ id, CarriesOut s (.deleteGroup id) (s.root.tree.Has .group id ∧ id ≠ s.root.tree.id)
      fun _ t => Tree.Removed .group id s.root.tree t) := by
  have hs := h.sound
  exact ⟨(ids_tree hs.intact).nodup_iff.2 hs.intact.unique, addCondition_carriesOut hs,
    addGroup_carriesOut hs, updateCondition_carriesOut hs, updateGroup_carriesOut hs,
    deleteCondition_carriesOut hs, deleteGroup_carriesOut hs⟩

/-- The root with the condition `2` and the group `3`. -/
def pair : Session := after [adding, .addGroup 1 .any]

theorem edits_refine_tree_pair : Reachable pair ∧
    Tree.Removed .condition 2 pair.root.tree
      (pair.perform (.deleteCondition 2)).session.root.tree ∧
    Tree.Removed .group 3 pair.root.tree (pair.perform (.deleteGroup 3)).session.root.tree := by
  have reachable : Reachable pair :=
    .call (.addGroup 1 .any) trivial (.call adding trivial (.start ..))
  obtain ⟨-, -, -, -, -, conditions, groups⟩ := edits_refine_tree reachable
  have condition : ¬ Refuses (pair.perform (.deleteCondition 2)).result := nofun
  have group : ¬ Refuses (pair.perform (.deleteGroup 3)).result := nofun
  exact ⟨reachable, (conditions 2).makes ((conditions 2).succeeds.1 condition),
    (groups 3).makes ((groups 3).succeeds.1 group)⟩

end FieldFilter.Session
