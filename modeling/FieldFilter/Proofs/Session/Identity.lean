import FieldFilter.Proofs.Outline.Integrity
import FieldFilter.Proofs.Outline.Reading
import FieldFilter.Proofs.Session.Step

/-!
# Intact outlines and fresh ids

Sessions keep their outline intact and draw every id once (`Reachable.sound`), so a property that
steps of such sessions keep holds of all reachable ones (`Reachable.of_step`). What a step does to
the nodes is `Continues`: the root keeps its id, ids are drawn in ascending order, and a node that
was not there before has a newly drawn id. Along a run (`Leads`) this means that a node which is
gone does not come back (`run_identity`).
-/

namespace FieldFilter.Session

open FieldFilter.Group

/-- What can become of the nodes of an outline when ids are drawn from `n` on up to `m`. -/
structure Grows (g : Group) (n : NodeId) (g' : Group) (m : NodeId) : Prop where
  intact : g'.Intact
  root : g'.id = g.id
  next : n ≤ m
  ids : ∀ id ∈ g'.ids, id ∈ g.ids ∨ n ≤ id ∧ id < m

/-- The nodes of `t` are nodes of `s` or newer than all of them. -/
structure Continues (s t : Session) : Prop where
  root : t.root.id = s.root.id
  next : s.next ≤ t.next
  fresh : ∀ id ∈ t.root.ids, id ∈ s.root.ids ∨ s.next ≤ id

theorem Continues.refl (s : Session) : Continues s s where
  root := rfl
  next := Nat.le_refl _
  fresh := fun _ h => .inl h

theorem Continues.trans {s t u : Session} (h : Continues s t) (h' : Continues t u) :
    Continues s u where
  root := h'.root.trans h.root
  next := Nat.le_trans h.next h'.next
  fresh := by
    intro id hid
    obtain old | new := h'.fresh id hid
    · exact h.fresh id old
    · exact .inr (Nat.le_trans h.next new)

/-- A node below the next id that is gone stays away. -/
theorem Continues.gone {s t : Session} (h : Continues s t) {id : NodeId} (drawn : id < s.next)
    (gone : id ∉ s.root.ids) : id ∉ t.root.ids := by
  intro back
  obtain old | new := h.fresh id back
  · exact gone old
  · exact Nat.not_le.2 drawn new

/-! ## Changes -/

section
variable {g g' : Group} {n : NodeId}

/-- Ids that stay the same, in whatever order. -/
theorem grows_of_perm (intact : g'.Intact) (root : g'.id = g.id) (ids : g'.ids.Perm g.ids) :
    Grows g n g' n where
  intact := intact
  root := root
  next := Nat.le_refl n
  ids := fun _ hid => .inl (ids.mem_iff.1 hid)

/-- A new node takes the next id. -/
theorem grows_of_insert {item : Item} {index : Option Nat} {target : NodeId} (hg : g.Intact)
    (drawn : ∀ id ∈ g.ids, id < n) (hi : ∀ x ∈ item.family, x.Ordered) (own : item.ids = [n])
    (h : g.modifyGroup target (insertChild item index) = some g') : Grows g n g' (n + 1) where
  intact := by
    refine hg.insert hi ?_ h
    rw [own]
    exact List.nodup_cons.2 ⟨fun old => Nat.lt_irrefl n (drawn n old), hg.unique⟩
  root := insert_root h
  next := Nat.le_succ n
  ids := by
    intro id hid
    have hid := (insert_ids h).mem_iff.1 hid
    rw [own] at hid
    obtain rfl | old := List.mem_cons.1 hid
    · exact .inr ⟨Nat.le_refl id, Nat.lt_succ_self id⟩
    · exact .inl old

theorem grows_of_detach {kind : Kind} {id origin : NodeId} {item : Item} (hg : g.Intact)
    (h : g.detach kind id = some (g', origin, item)) : Grows g n g' n where
  intact := hg.detach h
  root := detach_root h
  next := Nat.le_refl n
  ids := fun _ hid => .inl ((detach_ids h).mem_iff.2 (List.mem_append_right _ hid))

/-- Taking a node out and putting it back in keeps all ids. -/
theorem grows_of_move {kind : Kind} {id origin target : NodeId} {item : Item} {rest : Group}
    {index : Option Nat} (hg : g.Intact) (h : g.detach kind id = some (rest, origin, item))
    (h' : rest.modifyGroup target (insertChild item index) = some g') : Grows g n g' n := by
  have ids := (insert_ids h').trans (detach_ids h).symm
  exact grows_of_perm (hg.move h h') ((insert_root h').trans (detach_root h)) ids

/-- An outline that is read takes the place of the old one under the id of the old root, which was
drawn before all of its own. -/
theorem grows_of_read (e : Json) (drawn : g.id < n) :
    Grows g n { (Reading.ofExpression e n).root with id := g.id }
      (Reading.ofExpression e n).next := by
  obtain ⟨k, next, ids⟩ := Reading.ofExpression_ids e n
  have new : ∀ id ∈ (Reading.ofExpression e n).root.ids.tail, n ≤ id ∧ id < n + k := by
    intro id hid
    exact List.mem_range'_1.1 (ids.mem_iff.1 (List.mem_of_mem_tail hid))
  constructor
  · refine (Reading.intact_ofExpression e n).rename fun hid => ?_
    exact Nat.not_le.2 drawn (new g.id hid).1
  · rfl
  · exact next ▸ Nat.le_add_right n k
  · intro id hid
    rw [ids_rename] at hid
    rw [next]
    obtain rfl | hid := List.mem_cons.1 hid
    · exact .inl g.id_mem_ids
    · exact .inr (new id hid)

end

theorem edit_grows {s : Session} {g : Group} {n : NodeId} (hs : s.Sound) (h : Edit s g n) :
    Grows s.root s.next g n := by
  cases h with
  | addedCondition today group _ inserted =>
    refine grows_of_insert hs.intact hs.drawn (fun x hx => by cases hx) ?_ inserted
    rw [Item.ids, newCondition_id]
  | addedGroup parent j _ _ _ inserted =>
    refine grows_of_insert hs.intact hs.drawn (fun x hx => ?_) rfl inserted
    exact (intact_empty s.next j).ordered x hx
  | rejoined id j modified =>
    obtain ⟨x, -, r⟩ := modifyGroup_replaced modified
    obtain ⟨intact, ids, root⟩ := r.intact rfl rfl rfl hs.intact
    exact grows_of_perm intact root ids
  | deleted kind id _ detached => exact grows_of_detach hs.intact detached
  | moved kind id d _ _ detached inserted => exact grows_of_move hs.intact detached inserted
  | cleared =>
    refine ⟨intact_empty .., rfl, Nat.le_refl _, fun id hid => .inl ?_⟩
    obtain rfl := List.mem_singleton.1 hid
    exact s.root.id_mem_ids

theorem change_grows {s : Session} {g : Group} {n : NodeId} (hs : s.Sound) (h : Change s g n) :
    Grows s.root s.next g n := by
  cases h with
  | same => exact grows_of_perm hs.intact rfl (.refl _)
  | edited edit => exact edit_grows hs edit
  | patched id patch _ modified =>
    obtain ⟨x, before, c, rest, split, -, r⟩ := modifyCondition_replaced modified
    have own : ownIds { x with conditions := before ++ c.apply patch :: rest } = x.ownIds := by
      simp [ownIds, split, Condition.apply]
    obtain ⟨intact, ids, root⟩ := r.intact own rfl rfl hs.intact
    exact grows_of_perm intact root ids
  | read => exact grows_of_read _ (hs.drawn _ s.root.id_mem_ids)

theorem Grows.sound {s t : Session} (hs : s.Sound) (h : Grows s.root s.next t.root t.next) :
    t.Sound ∧ Continues s t := by
  refine ⟨⟨h.intact, fun id hid => ?_⟩, h.root, h.next, fun id hid => ?_⟩
  · obtain old | ⟨-, new⟩ := h.ids id hid
    · exact Nat.lt_of_lt_of_le (hs.drawn id old) h.next
    · exact new
  · exact (h.ids id hid).imp_right And.left

theorem step_sound {s t : Session} (hs : s.Sound) (h : Step s t) : t.Sound ∧ Continues s t := by
  cases h with
  | kept => exact ⟨hs, .refl s⟩
  | scrolled => exact ⟨⟨hs.intact, hs.drawn⟩, rfl, Nat.le_refl _, fun _ h => .inl h⟩
  | judged _ _ change =>
    rw [revalidate_session]
    exact (change_grows hs change).sound hs
  | rejected => exact ⟨⟨hs.intact, hs.drawn⟩, rfl, Nat.le_refl _, fun _ h => .inl h⟩

theorem sound_blank (fields : List Field) (preferences : Preferences) :
    (blank fields preferences).Sound where
  intact := intact_empty 1 .all
  drawn := by
    intro id hid
    obtain rfl := List.mem_singleton.1 hid
    exact Nat.lt_succ_self 1

theorem Reachable.sound {s : Session} (h : Reachable s) : s.Sound := by
  induction h with
  | start fields preferences initial =>
    exact (step_sound (sound_blank ..) (start_step fields preferences initial)).1
  | call c proper _ ih => exact (step_sound ih (perform_step ih proper)).1

/-- What the blank sessions have and the steps of sound sessions keep, all reachable sessions
have. -/
theorem Reachable.of_step {P : Session → Prop}
    (start : ∀ fields preferences, P (blank fields preferences))
    (step : ∀ {s t}, s.Sound → P s → Step s t → P t) {s : Session} (h : Reachable s) : P s := by
  induction h with
  | start fields preferences initial =>
    exact step (sound_blank ..) (start ..) (start_step fields preferences initial)
  | call c proper h ih => exact step h.sound ih (perform_step h.sound proper)

/-! ## Runs -/

/-- Proper calls lead from one session to another. -/
inductive Leads (s : Session) : Session → Prop
  | refl : Leads s s
  | call {t : Session} (c : Call) : c.Proper → Leads s t → Leads s (t.perform c).session

theorem Leads.reachable {s t : Session} (h : Leads s t) (hs : Reachable s) : Reachable t := by
  induction h with
  | refl => exact hs
  | call c proper _ ih => exact .call c proper ih

theorem Leads.continues {s t : Session} (h : Leads s t) (hs : Reachable s) : Continues s t := by
  induction h with
  | refl => exact .refl s
  | call c proper h ih =>
    have sound := (h.reachable hs).sound
    exact ih.trans (step_sound sound (perform_step sound proper)).2

/-- Every session `s` that a run from a start comes to has an intact outline under the id of the
first root, with ids below the next one to draw. Wherever the run goes on from there, ids are drawn
in ascending order, and a node that is gone from the outline is never in it again. -/
theorem run_identity {fields : List Field} {preferences : Preferences} {initial : Option String}
    {s t u : Session} (hs : Leads (start fields preferences initial).session s) (ht : Leads s t)
    (hu : Leads t u) :
    s.root.checkIntegrity = .ok () ∧ s.root.ids.Nodup ∧
      (∀ g ∈ s.root.family, g.order.Perm g.refs) ∧
      s.root.id = (start fields preferences initial).session.root.id ∧
      (∀ id ∈ s.root.ids, id < s.next) ∧ s.next ≤ t.next ∧
      ∀ id ∈ s.root.ids, id ∉ t.root.ids → id ∉ u.root.ids := by
  have first : Reachable (start fields preferences initial).session := .start ..
  have reachable := hs.reachable first
  have sound := reachable.sound
  have later := ht.continues reachable
  refine ⟨sound.intact.check, sound.intact.unique, sound.intact.ordered,
    (hs.continues first).root, sound.drawn, later.next, fun id hid gone => ?_⟩
  have drawn : id < t.next := Nat.lt_of_lt_of_le (sound.drawn id hid) later.next
  exact (hu.continues (ht.reachable reachable)).gone drawn gone

/-- The run from an empty start over the given calls. -/
def after (calls : List Call) : Session :=
  calls.foldl (fun s c => (s.perform c).session) (start [] ⟨16, true, false⟩ none).session

/-- Adds a condition to the root. -/
def adding : Call := .addCondition ⟨2024, 1, 1⟩ 1

/-- The condition `2` is added and deleted, and the next one is not `2` again. -/
theorem run_identity_deleted :
    2 ∈ (after [adding]).root.ids ∧ 2 ∉ (after [adding, .deleteCondition 2]).root.ids ∧
      3 ∈ (after [adding, .deleteCondition 2, adding]).root.ids ∧
      2 ∉ (after [adding, .deleteCondition 2, adding]).root.ids := by
  have added : 2 ∈ (after [adding]).root.ids := by decide
  have deleted : 2 ∉ (after [adding, .deleteCondition 2]).root.ids := by decide
  obtain ⟨-, -, -, -, -, -, gone⟩ := run_identity (s := after [adding])
    (t := after [adding, .deleteCondition 2]) (u := after [adding, .deleteCondition 2, adding])
    (.call adding trivial .refl) (.call (.deleteCondition 2) trivial .refl)
    (.call adding trivial .refl)
  exact ⟨added, deleted, by decide, gone 2 added deleted⟩

end FieldFilter.Session
