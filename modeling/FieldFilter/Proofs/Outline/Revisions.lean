import FieldFilter.Proofs.Outline.Lookup
import Mathlib.Data.List.Flatten

/-!
# Changes of all nodes at once

A `Revision` says what becomes of every node of an outline: the junction of each group, each
condition, and which children stay. Where ids differ, changing one node is a revision that leaves
all others alone (`Concerns`): another junction (`modifyGroup_revise`), a changed condition
(`modifyCondition_revise`), a node less (`detach_revise`). If the node is not there, the revision
changes nothing (`revise_self`), just as the change cannot be made. Revisions of different nodes
commute (`revise_comm`), wherever the nodes are and whether they are there or not.
-/

namespace FieldFilter

/-- What becomes of the nodes of an outline. -/
structure Revision where
  junction : NodeId → Junction → Junction
  condition : Condition → Condition
  /-- whether the child of an entry stays -/
  keeps : ChildRef → Bool
  condition_id : ∀ c, (condition c).id = c.id

namespace Group

mutual

/-- The outline after a revision. -/
def revise (e : Revision) : Group → Group
  | ⟨id, junction, conditions, groups, order⟩ =>
    ⟨id, e.junction id junction,
      (conditions.filter fun c => e.keeps ⟨.condition, c.id⟩).map e.condition,
      reviseAll e groups, order.filter e.keeps⟩

def reviseAll (e : Revision) : List Group → List Group
  | [] => []
  | g :: rest =>
    if e.keeps ⟨.group, g.id⟩ then g.revise e :: reviseAll e rest else reviseAll e rest

end

theorem reviseAll_eq (e : Revision) (gs : List Group) :
    reviseAll e gs = (gs.filter fun g => e.keeps ⟨.group, g.id⟩).map (revise e) := by
  induction gs with
  | nil => rfl
  | cons g rest ih =>
    rw [reviseAll, ih, List.filter_cons]
    split <;> rfl

theorem revise_eq (e : Revision) (g : Group) : g.revise e =
    ⟨g.id, e.junction g.id g.junction,
      (g.conditions.filter fun c => e.keeps ⟨.condition, c.id⟩).map e.condition,
      (g.groups.filter fun h => e.keeps ⟨.group, h.id⟩).map (revise e),
      g.order.filter e.keeps⟩ := by
  cases g
  rw [revise, reviseAll_eq]

@[simp] theorem revise_id (e : Revision) (g : Group) : (g.revise e).id = g.id := by
  rw [revise_eq]

/-! ## Intact outlines -/

theorem refs_revise (e : Revision) (g : Group) : (g.revise e).refs = g.refs.filter e.keeps := by
  have conditions : (fun c : Condition => (⟨.condition, (e.condition c).id⟩ : ChildRef)) =
      fun c => ⟨.condition, c.id⟩ := by
    funext c
    rw [e.condition_id]
  rw [revise_eq, refs, refs, List.filter_append, List.filter_map, List.filter_map, List.map_map,
    List.map_map]
  simp only [Function.comp_def, conditions, revise_id]

theorem ids_revise (e : Revision) (g : Group) : (g.revise e).ids.Sublist g.ids := by
  induction g using induct with
  | step g ih =>
    have conditions : (g.revise e).conditions.map Condition.id =
        (g.conditions.filter fun c => e.keeps ⟨.condition, c.id⟩).map Condition.id := by
      rw [revise_eq, List.map_map]
      exact List.map_congr_left fun c _ => e.condition_id c
    have groups : ((g.revise e).groups.flatMap ids).Sublist (g.groups.flatMap ids) := by
      rw [revise_eq]
      dsimp only
      rw [List.flatMap_map]
      have kept : (g.groups.filter fun h => e.keeps ⟨.group, h.id⟩).Sublist g.groups :=
        List.filter_sublist
      refine List.Sublist.trans ?_ (kept.flatMap ids)
      exact List.Sublist.flatMap_right _ fun h hm => ih h (kept.subset hm)
    rw [ids_eq, ids_eq g, ownIds, ownIds, conditions, revise_id]
    exact ((List.filter_sublist.map Condition.id).cons_cons g.id).append groups

/-- The groups of the outline after a revision are groups of it, revised. -/
theorem mem_family_revise {e : Revision} {g x : Group} :
    x ∈ (g.revise e).family → ∃ y ∈ g.family, x = y.revise e := by
  induction g using induct with
  | step g ih =>
    intro hx
    obtain rfl | ⟨c, hc, within⟩ := mem_family_iff.1 hx
    · exact ⟨g, mem_family_self g, rfl⟩
    · rw [revise_eq] at hc
      obtain ⟨h, hm, rfl⟩ := List.mem_map.1 hc
      have held := List.mem_of_mem_filter hm
      obtain ⟨y, hy, rfl⟩ := ih h held within
      exact ⟨y, mem_family_trans hy (mem_family_of_mem held), rfl⟩

/-- A revision leaves an outline intact. -/
theorem Intact.revise {g : Group} (hg : g.Intact) (e : Revision) : (g.revise e).Intact where
  unique := (ids_revise e g).nodup hg.unique
  ordered := by
    intro x hx
    obtain ⟨y, hy, rfl⟩ := mem_family_revise hx
    rw [Ordered, refs_revise, revise_eq]
    exact (hg.ordered y hy).filter e.keeps

end Group

/-! ## Revisions of one node -/

namespace Revision

/-- The revision leaves all nodes alone but the one of an entry. -/
structure Concerns (e : Revision) (node : ChildRef) : Prop where
  junction : ∀ id j, ⟨.group, id⟩ ≠ node → e.junction id j = j
  condition : ∀ c : Condition, ⟨.condition, c.id⟩ ≠ node → e.condition c = c
  keeps : ∀ r, r ≠ node → e.keeps r = true

/-- Gives the group with the id another junction. -/
def rejoining (id : NodeId) (j : Junction) : Revision where
  junction := fun i old => if i = id then j else old
  condition := fun c => c
  keeps := fun _ => true
  condition_id := fun _ => rfl

/-- Changes the condition with the id. -/
def changing (id : NodeId) (f : Condition → Condition) (same : ∀ c, (f c).id = c.id) :
    Revision where
  junction := fun _ j => j
  condition := fun c => if c.id = id then f c else c
  keeps := fun _ => true
  condition_id := fun c => by
    split
    · exact same c
    · rfl

/-- Takes the node out. -/
def removing (kind : Kind) (id : NodeId) : Revision where
  junction := fun _ j => j
  condition := fun c => c
  keeps := (· ≠ ⟨kind, id⟩)
  condition_id := fun _ => rfl

theorem concerns_rejoining (id : NodeId) (j : Junction) :
    (rejoining id j).Concerns ⟨.group, id⟩ where
  junction := fun _ _ other => if_neg fun same => other (by rw [same])
  condition := fun _ _ => rfl
  keeps := fun _ _ => rfl

theorem concerns_changing (id : NodeId) {f : Condition → Condition} (same : ∀ c, (f c).id = c.id) :
    (changing id f same).Concerns ⟨.condition, id⟩ where
  junction := fun _ _ _ => rfl
  condition := fun _ other => if_neg fun same => other (by rw [same])
  keeps := fun _ _ => rfl

theorem concerns_removing (kind : Kind) (id : NodeId) : (removing kind id).Concerns ⟨kind, id⟩ where
  junction := fun _ _ _ => rfl
  condition := fun _ _ => rfl
  keeps := fun _ other => decide_eq_true other

end Revision

namespace Group

section
variable {e : Revision} {node : ChildRef}

theorem Has.of_mem {g x : Group} (hx : x ∈ g.family) {kind : Kind} {id : NodeId}
    (has : x.Has kind id) : g.Has kind id := by
  cases kind with
  | condition =>
    obtain ⟨c, hc, same⟩ := has
    obtain ⟨y, hy, hc⟩ := List.mem_flatMap.1 hc
    exact ⟨c, mem_leaves_of_mem (mem_family_trans hy hx) hc, same⟩
  | group =>
    obtain ⟨y, hy, same⟩ := has
    exact ⟨y, mem_family_trans hy hx, same⟩

theorem conditions_kept (h : e.Concerns node) {cs : List Condition}
    (other : ∀ c ∈ cs, ⟨.condition, c.id⟩ ≠ node) :
    (cs.filter fun c => e.keeps ⟨.condition, c.id⟩).map e.condition = cs := by
  rw [List.filter_eq_self.2 fun c hc => h.keeps _ (other c hc)]
  exact (List.map_congr_left fun c hc => h.condition c (other c hc)).trans cs.map_id'

theorem keeps_of_absent (h : e.Concerns node) {x : Group} (absent : ¬ x.Has node.kind node.id) :
    e.keeps ⟨.group, x.id⟩ = true := by
  apply h.keeps
  rintro rfl
  exact absent ⟨x, mem_family_self x, rfl⟩

theorem groups_kept (h : e.Concerns node) {gs : List Group}
    (absent : ∀ x ∈ gs, ¬ x.Has node.kind node.id) (same : ∀ x ∈ gs, x.revise e = x) :
    (gs.filter fun x => e.keeps ⟨.group, x.id⟩).map (revise e) = gs := by
  rw [List.filter_eq_self.2 fun x hx => keeps_of_absent h (absent x hx)]
  exact (List.map_congr_left same).trans gs.map_id'

theorem order_kept (h : e.Concerns node) {g : Group} (ordered : g.Ordered)
    (conditions : ∀ c ∈ g.conditions, ⟨.condition, c.id⟩ ≠ node)
    (groups : ∀ x ∈ g.groups, e.keeps ⟨.group, x.id⟩ = true) :
    g.order.filter e.keeps = g.order := by
  refine List.filter_eq_self.2 fun r hr => ?_
  obtain held | held := List.mem_append.1 (ordered.mem_iff.1 hr)
  · obtain ⟨c, hc, rfl⟩ := List.mem_map.1 held
    exact h.keeps _ (conditions c hc)
  · obtain ⟨x, hx, rfl⟩ := List.mem_map.1 held
    exact groups x hx

/-- If the node is not below a group, only the junction of the group can change. -/
theorem revise_of_children (h : e.Concerns node) {g : Group} (ordered : g.Ordered)
    (conditions : ∀ c ∈ g.conditions, ⟨.condition, c.id⟩ ≠ node)
    (absent : ∀ x ∈ g.groups, ¬ x.Has node.kind node.id) (same : ∀ x ∈ g.groups, x.revise e = x) :
    g.revise e = { g with junction := e.junction g.id g.junction } := by
  rw [revise_eq, conditions_kept h conditions, groups_kept h absent same,
    order_kept h ordered conditions fun x hx => keeps_of_absent h (absent x hx)]

/-- Without the node, a revision changes nothing. -/
theorem revise_self (h : e.Concerns node) (g : Group) :
    (∀ x ∈ g.family, x.Ordered) → ¬ g.Has node.kind node.id → g.revise e = g := by
  induction g using induct with
  | step g ih =>
    intro ordered absent
    have below : ∀ x ∈ g.groups, ¬ x.Has node.kind node.id :=
      fun x hx has => absent (has.of_mem (mem_family_of_mem hx))
    have junction : e.junction g.id g.junction = g.junction := by
      refine h.junction _ _ ?_
      rintro rfl
      exact absent ⟨g, mem_family_self g, rfl⟩
    have whole := revise_of_children h (ordered g (mem_family_self g)) ?_ below fun x hx =>
      ih x hx (fun y hy => ordered y (mem_family_iff.2 (.inr ⟨x, hx, hy⟩))) (below x hx)
    · rw [whole, junction]
      cases g
      rfl
    · rintro c hc rfl
      exact absent ⟨c, mem_leaves_of_mem (mem_family_self g) hc, rfl⟩

/-- Where a group that has the node stays, so do the groups around it. -/
theorem Replaced.keeps {x x' g g' : Group} (r : Replaced x x' g g') (h : e.Concerns node)
    (ids : g.ids.Nodup) (has : x.Has node.kind node.id)
    (held : e.keeps ⟨.group, x.id⟩ = true) : e.keeps ⟨.group, g.id⟩ = true := by
  cases r with
  | here => exact held
  | @inside c c' id j cs before rest order r =>
    apply h.keeps
    rintro rfl
    obtain ⟨y, hy, same⟩ := has
    obtain ⟨n, stands⟩ := exists_sits c y (mem_family_trans hy r.mem)
    exact stands.id_ne (by simp) ids same.symm

/-- If the node is in one of the subgroups, only this one changes. -/
theorem revise_around (h : e.Concerns node) {id : NodeId} {j : Junction} {cs : List Condition}
    {before rest : List Group} {c : Group} {order : List ChildRef}
    (hg : Intact ⟨id, j, cs, before ++ c :: rest, order⟩) (has : c.Has node.kind node.id)
    (kept : e.keeps ⟨.group, c.id⟩ = true) :
    revise e ⟨id, j, cs, before ++ c :: rest, order⟩ =
      ⟨id, j, cs, before ++ c.revise e :: rest, order⟩ := by
  -- the node is not in what is around the subgroup
  have around : ¬ (⟨id, j, cs, before ++ rest, []⟩ : Group).Has node.kind node.id := by
    have apart := (ids_middle id j cs before rest c order []).nodup_iff.1 hg.unique
    exact fun other => (List.nodup_append.1 apart).2.2 _ has.mem_ids _ other.mem_ids rfl
  have junction : e.junction id j = j := by
    apply h.junction
    rintro rfl
    exact around ⟨_, mem_family_self _, rfl⟩
  have conditions : ∀ d ∈ cs, ⟨.condition, d.id⟩ ≠ node := by
    rintro d hd rfl
    exact around ⟨d, mem_leaves_of_mem (mem_family_self _) hd, rfl⟩
  have absent : ∀ y ∈ before ++ rest, ¬ y.Has node.kind node.id :=
    fun y hy other => around (other.of_mem (mem_family_of_mem hy))
  have same : ∀ y ∈ before ++ rest, y.revise e = y := by
    intro y hy
    have held : y ∈ before ++ c :: rest :=
      ((List.sublist_cons_self c rest).append_left before).subset hy
    exact revise_self h y (hg.of_mem (mem_family_of_mem held)).ordered (absent y hy)
  obtain ⟨front, back⟩ := List.forall_mem_append.1 absent
  obtain ⟨front', back'⟩ := List.forall_mem_append.1 same
  have entries : order.filter e.keeps = order := by
    refine order_kept h (hg.ordered _ (mem_family_self _)) conditions fun y hy => ?_
    obtain rfl | other : y = c ∨ y ∈ before ++ rest := by simpa [or_left_comm] using hy
    · exact kept
    · exact keeps_of_absent h (absent y other)
  rw [revise_eq]
  dsimp only
  rw [junction, conditions_kept h conditions, entries, List.filter_append, List.filter_cons,
    if_pos kept, List.map_append, List.map_cons, groups_kept h front front',
    groups_kept h back back']

/-- A revision changes the group that has the node, and leaves the groups around it. -/
theorem Replaced.revise {x x' g g' : Group} (r : Replaced x x' g g') (h : e.Concerns node)
    (hg : g.Intact) (has : x.Has node.kind node.id) (held : e.keeps ⟨.group, x.id⟩ = true)
    (own : x.revise e = x') : g.revise e = g' := by
  induction r with
  | here => exact own
  | @inside c c' id j cs before rest order r ih =>
    have hc : c.Intact := hg.of_mem (mem_family_of_mem (by simp))
    rw [revise_around h hg (has.of_mem r.mem) (r.keeps h hc.unique has held), ih hc]

/-! ## Commuting revisions -/

/-- Selections and changes that do not disturb one another commute. -/
theorem filter_map_comm {α : Type} {p q : α → Bool} {f g : α → α} {l : List α}
    (hq : ∀ a, q (f a) = q a) (hp : ∀ a, p (g a) = p a) (same : ∀ a ∈ l, g (f a) = f (g a)) :
    (((l.filter p).map f).filter q).map g = (((l.filter q).map g).filter p).map f := by
  have hq : q ∘ f = q := funext hq
  have hp : p ∘ g = p := funext hp
  rw [List.filter_map, List.filter_map, hq, hp, List.map_map, List.map_map, List.filter_filter,
    List.filter_filter]
  simp only [Bool.and_comm]
  refine List.map_congr_left fun a ha => same a (List.mem_of_mem_filter ha)

section
variable {f : Revision} {other : ChildRef}

theorem junction_comm (he : e.Concerns node) (hf : f.Concerns other) (differ : node ≠ other)
    (id : NodeId) (j : Junction) :
    f.junction id (e.junction id j) = e.junction id (f.junction id j) := by
  by_cases own : ⟨.group, id⟩ = node
  · have apart : ⟨.group, id⟩ ≠ other := own ▸ differ
    rw [hf.junction id _ apart, hf.junction id _ apart]
  · rw [he.junction id _ own, he.junction id _ own]

theorem condition_comm (he : e.Concerns node) (hf : f.Concerns other) (differ : node ≠ other)
    (c : Condition) : f.condition (e.condition c) = e.condition (f.condition c) := by
  by_cases own : ⟨.condition, c.id⟩ = node
  · have apart : ⟨.condition, c.id⟩ ≠ other := own ▸ differ
    rw [hf.condition c apart, hf.condition (e.condition c) (by rwa [e.condition_id])]
  · rw [he.condition c own, he.condition (f.condition c) (by rwa [f.condition_id])]

/-- Revisions of different nodes commute. -/
theorem revise_comm (he : e.Concerns node) (hf : f.Concerns other) (differ : node ≠ other)
    (g : Group) : (g.revise e).revise f = (g.revise f).revise e := by
  induction g using induct with
  | step g ih =>
    have conditions := filter_map_comm (l := g.conditions)
      (p := fun c => e.keeps ⟨.condition, c.id⟩) (q := fun c => f.keeps ⟨.condition, c.id⟩)
      (fun c => by rw [e.condition_id]) (fun c => by rw [f.condition_id])
      fun c _ => condition_comm he hf differ c
    have groups := filter_map_comm (l := g.groups) (p := fun x => e.keeps ⟨.group, x.id⟩)
      (q := fun x => f.keeps ⟨.group, x.id⟩) (fun x => by rw [revise_id])
      (fun x => by rw [revise_id]) ih
    have order : (g.order.filter e.keeps).filter f.keeps =
        (g.order.filter f.keeps).filter e.keeps := by
      simp only [List.filter_filter, Bool.and_comm]
    rw [revise_eq f (g.revise e), revise_eq e (g.revise f), revise_eq e g, revise_eq f g]
    dsimp only
    rw [junction_comm he hf differ, conditions, groups, order]

end

/-! ## Changes of one node -/

/-- The ids of a group and of its conditions are not used below it. -/
theorem not_has_below {g : Group} (ids : g.ids.Nodup) (kind : Kind) {id : NodeId}
    (own : id ∈ g.ownIds) : ∀ x ∈ g.groups, ¬ x.Has kind id := by
  intro x hx has
  rw [ids_eq] at ids
  exact (List.nodup_append.1 ids).2.2 id own id (List.mem_flatMap.2 ⟨x, hx, has.mem_ids⟩) rfl

/-- Of the root, a revision changes the junction alone. -/
theorem revise_root {g : Group} (hg : g.Intact) (h : e.Concerns ⟨.group, g.id⟩) :
    g.revise e = { g with junction := e.junction g.id g.junction } := by
  have below : ∀ x ∈ g.groups, ¬ x.Has .group g.id :=
    not_has_below hg.unique .group List.mem_cons_self
  exact revise_of_children h (hg.ordered g (mem_family_self g)) nofun below fun x hx =>
    revise_self h x (hg.of_mem (mem_family_of_mem hx)).ordered (below x hx)

/-- The root cannot be taken out. -/
theorem removing_root {g : Group} (hg : g.Intact) : g.revise (.removing .group g.id) = g := by
  rw [revise_root hg (Revision.concerns_removing .group g.id)]
  cases g
  rfl

section
variable {g g' : Group} {kind : Kind} {id : NodeId}

theorem modifyGroup_revise {j : Junction} (hg : g.Intact)
    (h : g.modifyGroup id (fun x => { x with junction := j }) = some g') :
    g.revise (.rejoining id j) = g' := by
  obtain ⟨x, rfl, r⟩ := modifyGroup_replaced h
  have concerns := Revision.concerns_rejoining x.id j
  refine r.revise concerns hg ⟨x, mem_family_self x, rfl⟩ rfl ?_
  rw [revise_root (hg.of_mem r.mem) concerns]
  simp [Revision.rejoining]

theorem modifyCondition_revise {f : Condition → Condition} (same : ∀ c, (f c).id = c.id)
    (hg : g.Intact) (h : g.modifyCondition id f = some g') :
    g.revise (.changing id f same) = g' := by
  obtain ⟨⟨own, j, cs, gs, order⟩, before, c, rest, split, rfl, r⟩ := modifyCondition_replaced h
  dsimp only at split
  subst split
  have hx := hg.of_mem r.mem
  have concerns := Revision.concerns_changing c.id same
  have held : c ∈ before ++ c :: rest := by simp
  refine r.revise concerns hg ⟨c, mem_leaves_of_mem (mem_family_self _) held, rfl⟩ rfl ?_
  have below := not_has_below hx.unique .condition
    (List.mem_cons_of_mem _ (List.mem_map_of_mem held))
  have unchanged : ∀ y ∈ gs, y.revise (.changing c.id f same) = y := fun y hy =>
    revise_self concerns y (hx.of_mem (mem_family_of_mem hy)).ordered (below y hy)
  have others : ∀ d ∈ before ++ rest, (⟨.condition, d.id⟩ : ChildRef) ≠ ⟨.condition, c.id⟩ := by
    intro d hd ref
    have ids := nodup_conditions hx.unique
    rw [List.map_append, List.map_cons] at ids
    refine (List.nodup_middle.1 ids).notMem ?_
    have key : d.id = c.id := congrArg ChildRef.id ref
    rw [← List.map_append, ← key]
    exact List.mem_map_of_mem hd
  obtain ⟨front, back⟩ := List.forall_mem_append.1 others
  have conditions : ((before ++ c :: rest).filter fun d =>
      (Revision.changing c.id f same).keeps ⟨.condition, d.id⟩).map
        (Revision.changing c.id f same).condition = before ++ f c :: rest := by
    have changed : (Revision.changing c.id f same).condition c = f c := if_pos rfl
    have kept : (Revision.changing c.id f same).keeps ⟨.condition, c.id⟩ = true := rfl
    rw [List.filter_append, List.filter_cons, if_pos kept, List.map_append, List.map_cons, changed,
      conditions_kept concerns front, conditions_kept concerns back]
  have order : order.filter (Revision.changing c.id f same).keeps = order :=
    List.filter_eq_self.2 fun _ _ => rfl
  rw [revise_eq]
  dsimp only
  rw [conditions, groups_kept concerns below unchanged, order]
  rfl

theorem detachChild_revise {item : Item} (hg : g.Intact)
    (h : g.detachChild kind id = some (g', item)) : g.revise (.removing kind id) = g' := by
  obtain ⟨ref, split⟩ := detachChild_split h
  have absent : ¬ g'.Has kind id := by
    have apart := (ids_detachChild h).nodup_iff.1 hg.unique
    have own : id ∈ item.ids := by
      have same : item.id = id := congrArg ChildRef.id ref
      exact same ▸ item.id_mem_ids
    exact fun left => (List.nodup_append.1 apart).2.2 id own id left.mem_ids rfl
  have ordered : ∀ x ∈ g'.family, x.Ordered := by
    intro x hx
    obtain rfl | hx := mem_family_detachChild h hx
    · exact ordered_detachChild h (hg.ordered g (mem_family_self g)) (nodup_refs hg.unique)
    · exact hg.ordered x hx
  have gone : ¬ (Revision.removing kind id).keeps item.ref = true := by
    simp [Revision.removing, ref]
  have order : (g.order.filter (· ≠ item.ref)).filter (Revision.removing kind id).keeps =
      g.order.filter (Revision.removing kind id).keeps := by
    simp [Revision.removing, ref, List.filter_filter]
  -- without the node there is nothing more to take out
  rw [← revise_self (Revision.concerns_removing kind id) g' ordered absent, revise_eq, revise_eq]
  obtain ⟨c, before, rest, rfl, held, rfl⟩ | ⟨y, before, rest, rfl, held, rfl⟩ := split
  · dsimp only
    rw [order, held, filter_skip before rest (by exact gone)]
  · dsimp only
    rw [order, held, filter_skip before rest (by exact gone)]

theorem detach_revise {origin : NodeId} {item : Item} (hg : g.Intact)
    (h : g.detach kind id = some (g', origin, item)) : g.revise (.removing kind id) = g' := by
  obtain ⟨x, x', detached, -, r⟩ := detach_replaced h
  have hx := hg.of_mem r.mem
  have able : x.detachChild kind id ≠ none := by simp [detached]
  obtain ⟨has, below⟩ := (exists_detach_iff hx.unique).1
    (exists_detach_of_child (mem_family_self x) able)
  refine r.revise (Revision.concerns_removing kind id) hg has ?_ (detachChild_revise hx detached)
  -- what is taken out of a group is not the group itself
  refine decide_eq_true fun own => ?_
  obtain ⟨rfl, rfl⟩ := ChildRef.mk.inj own
  exact below rfl rfl

end

end

end Group

end FieldFilter
