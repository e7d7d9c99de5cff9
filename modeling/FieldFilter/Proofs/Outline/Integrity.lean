import FieldFilter.Outline.Integrity
import FieldFilter.Proofs.Outline.Intact
import Mathlib.Data.List.Perm.Subperm

/-!
# The check for intact outlines

The check walks through an outline with the ids that it has seen. What it takes in without a flaw is
new to it and has no id twice (`Enters`), so it passes intact outlines only. Where it stops, the
flaw that it reports is there (`Flawed`): the ids that it has seen are those in front, so an id that
it meets again is twice in the row (`flawed_of_checkFrom`). An intact outline has no flaw to report,
and so the check passes it (`check_iff`).
-/

namespace FieldFilter.Group

/-- `after` holds the ids in `seen` and those in `l`. -/
def Adds (seen : Std.HashSet NodeId) (l : List NodeId) (after : Std.HashSet NodeId) : Prop :=
  ∀ id, id ∈ after ↔ id ∈ seen ∨ id ∈ l

theorem Adds.cons {seen after : Std.HashSet NodeId} {a : NodeId} {l : List NodeId}
    (h : Adds (seen.insert a) l after) : Adds seen (a :: l) after := by
  intro id
  rw [h id, Std.HashSet.mem_insert, List.mem_cons, beq_iff_eq, @eq_comm _ a id, or_assoc,
    or_left_comm]

theorem Adds.append {seen middle after : Std.HashSet NodeId} {l l' : List NodeId}
    (h : Adds seen l middle) (h' : Adds middle l' after) : Adds seen (l ++ l') after := by
  intro id
  rw [h' id, h id, List.mem_append, or_assoc]

/-- What was seen was in front, and what is added comes behind it. -/
theorem Adds.known {seen after : Std.HashSet NodeId} {front l : List NodeId} (h : Adds seen l after)
    (known : ∀ id ∈ seen, id ∈ front) : ∀ id ∈ after, id ∈ front ++ l := by
  intro id hid
  rw [List.mem_append]
  exact ((h id).1 hid).imp_left (known id)

/-- The entries that are found held are those for the children. -/
theorem holds_iff {g : Group} {r : ChildRef} : g.holds r = true ↔ r ∈ g.refs := by
  obtain ⟨kind, id⟩ := r
  cases kind <;> simp [holds, refs]

/-! ## Outlines without a flaw -/

/-- The ids in `l` are new to a check that has seen those in `seen`, each is there once, and it has
seen the ids in `after` once it is past them. -/
structure Enters (seen : Std.HashSet NodeId) (l : List NodeId) (after : Std.HashSet NodeId) :
    Prop where
  unique : l.Nodup
  fresh : ∀ id ∈ l, id ∉ seen
  adds : Adds seen l after

section
variable {seen middle after : Std.HashSet NodeId}

theorem enters_nil : Enters seen [] seen where
  unique := .nil
  fresh := nofun
  adds := fun id => by simp

theorem Enters.cons {a : NodeId} {l : List NodeId} (new : a ∉ seen)
    (h : Enters (seen.insert a) l after) : Enters seen (a :: l) after where
  unique := by
    refine List.nodup_cons.2 ⟨fun again => ?_, h.unique⟩
    exact h.fresh a again (by simp)
  fresh := by
    refine List.forall_mem_cons.2 ⟨new, fun id hid old => ?_⟩
    exact h.fresh id hid (by simp [old])
  adds := h.adds.cons

theorem Enters.append {l l' : List NodeId} (h : Enters seen l middle)
    (h' : Enters middle l' after) : Enters seen (l ++ l') after where
  unique := by
    refine List.nodup_append.2 ⟨h.unique, h'.unique, ?_⟩
    rintro id hid _ hid' rfl
    exact h'.fresh id hid' ((h.adds id).2 (.inr hid))
  fresh := by
    intro id hid old
    obtain hid | hid := List.mem_append.1 hid
    · exact h.fresh id hid old
    · exact h'.fresh id hid ((h.adds id).2 (.inl old))
  adds := h.adds.append h'.adds

theorem enters_of_checkFresh {l : List NodeId} (h : checkFresh seen l = .ok after) :
    Enters seen l after := by
  induction l generalizing seen with
  | nil =>
    obtain rfl := Except.ok.inj h
    exact enters_nil
  | cons a rest ih =>
    rw [checkFresh] at h
    split at h
    · cases h
    · rename_i new
      exact (ih h).cons (by simpa using new)

/-- An order without a flaw has different entries, which are held. -/
theorem nodup_of_checkOrder {g : Group} {before : Std.HashSet ChildRef} {l : List ChildRef}
    (h : g.checkOrder before l = .ok ()) :
    l.Nodup ∧ (∀ r ∈ l, r ∉ before) ∧ ∀ r ∈ l, r ∈ g.refs := by
  induction l generalizing before with
  | nil => exact ⟨.nil, nofun, nofun⟩
  | cons a rest ih =>
    rw [checkOrder] at h
    split at h
    · cases h
    · rename_i new
      split at h
      · rename_i held
        obtain ⟨unique, fresh, others⟩ := ih h
        refine ⟨List.nodup_cons.2 ⟨fun again => fresh a again (by simp), unique⟩, ?_,
          List.forall_mem_cons.2 ⟨holds_iff.1 held, others⟩⟩
        refine List.forall_mem_cons.2 ⟨by simpa using new, fun r hr old => ?_⟩
        exact fresh r hr (by simp [old])
      · cases h

/-- A group without a flaw of its own orders its children: the entries of its order differ, are held
and are as many as the children. -/
theorem enters_of_checkOwn {g : Group} (h : checkOwn seen g = .ok after) :
    g.Ordered ∧ Enters seen g.ownIds after := by
  unfold checkOwn at h
  split at h
  · cases h
  · rename_i new
    dsimp only at h
    split at h
    · cases h
    · rename_i count
      split at h
      · cases h
      · rename_i entries
        obtain ⟨unique, -, held⟩ := nodup_of_checkOrder entries
        have length : g.refs.length ≤ g.order.length := by
          simp only [refs, List.length_append, List.length_map]
          omega
        refine ⟨(unique.subperm held).perm_of_length_le length, ?_⟩
        exact (enters_of_checkFresh h).cons (by simpa using new)

theorem enters_of_checkAllFrom {gs : List Group}
    (each : ∀ g ∈ gs, ∀ seen after, checkFrom seen g = .ok after →
      (∀ x ∈ g.family, x.Ordered) ∧ Enters seen g.ids after)
    (h : checkAllFrom seen gs = .ok after) :
    (∀ g ∈ gs, ∀ x ∈ g.family, x.Ordered) ∧ Enters seen (gs.flatMap ids) after := by
  induction gs generalizing seen with
  | nil =>
    obtain rfl := Except.ok.inj h
    exact ⟨nofun, enters_nil⟩
  | cons g rest ih =>
    obtain ⟨own, others⟩ := List.forall_mem_cons.1 each
    rw [checkAllFrom] at h
    split at h
    · cases h
    · rename_i middle first
      obtain ⟨ordered, entered⟩ := own seen middle first
      obtain ⟨ordered', entered'⟩ := ih others h
      exact ⟨List.forall_mem_cons.2 ⟨ordered, ordered'⟩, entered.append entered'⟩

theorem enters_of_checkFrom (g : Group) : ∀ seen after, checkFrom seen g = .ok after →
    (∀ x ∈ g.family, x.Ordered) ∧ Enters seen g.ids after := by
  induction g using induct with
  | step g ih =>
    intro seen after h
    rw [ids_eq]
    obtain ⟨id, j, cs, gs, order⟩ := g
    rw [checkFrom] at h
    split at h
    · cases h
    · rename_i middle own
      obtain ⟨ordered, entered⟩ := enters_of_checkOwn own
      obtain ⟨below, entered'⟩ := enters_of_checkAllFrom ih h
      refine ⟨fun x hx => ?_, entered.append entered'⟩
      obtain rfl | ⟨c, hc, within⟩ := mem_family_iff.1 hx
      · exact ordered
      · exact below c hc x within

end

/-! ## Flaws that are reported -/

/-- What can be wrong with the order of a group: it has more or fewer entries than there are
children, an entry twice, or an entry for no child. -/
inductive Misordered (x : Group) : Flaw → Prop
  | length : x.conditions.length + x.groups.length ≠ x.order.length →
      Misordered x
        (.lengthMismatch x.id (x.conditions.length + x.groups.length) x.order.length)
  | twice {r : ChildRef} : 1 < x.order.count r → Misordered x (.orderedTwice x.id r.id)
  | notHeld {r : ChildRef} : r ∈ x.order → r ∉ x.refs → Misordered x (.notHeld x.id r.kind r.id)

/-- The flaw is one of some nodes: an id twice among theirs, or the order of one of their groups. -/
inductive Flawed (ids : List NodeId) (gs : List Group) : Flaw → Prop
  | duplicateId {id : NodeId} : 1 < ids.count id → Flawed ids gs (.duplicateId id)
  | order {x : Group} {flaw : Flaw} : x ∈ gs → x.Misordered flaw → Flawed ids gs flaw

section
variable {seen : Std.HashSet NodeId} {front : List NodeId} {flaw : Flaw}

theorem Flawed.mono {l l' : List NodeId} {gs gs' : List Group} (h : Flawed l gs flaw)
    (ids : l.Sublist l') (groups : ∀ x ∈ gs, x ∈ gs') : Flawed l' gs' flaw := by
  cases h with
  | duplicateId twice => exact .duplicateId (Nat.lt_of_lt_of_le twice (ids.count_le _))
  | order hx wrong => exact .order (groups _ hx) wrong

/-- What is in both parts of a list is twice in it. -/
theorem one_lt_count {α : Type} [BEq α] [LawfulBEq α] {a : α} {l l' : List α} (h : a ∈ l)
    (h' : a ∈ l') : 1 < (l ++ l').count a := by
  have first := List.count_pos_iff.2 h
  have second := List.count_pos_iff.2 h'
  rw [List.count_append]
  omega

/-- What was seen is still in front when one more element is. -/
theorem seen_insert {α : Type} [BEq α] [LawfulBEq α] [Hashable α] [LawfulHashable α]
    {before : Std.HashSet α} {l : List α} (known : ∀ a ∈ before, a ∈ l) (a : α) :
    ∀ b ∈ before.insert a, b ∈ l ++ [a] := by
  intro b hb
  obtain same | old := by simpa using hb
  · simp [same]
  · exact List.mem_append_left _ (known b old)

theorem flawed_of_checkFresh {l : List NodeId} {gs : List Group} (known : ∀ id ∈ seen, id ∈ front)
    (h : checkFresh seen l = .error flaw) : Flawed (front ++ l) gs flaw := by
  induction l generalizing seen front with
  | nil => cases h
  | cons a rest ih =>
    rw [checkFresh] at h
    split at h
    · rename_i old
      obtain rfl := Except.error.inj h
      exact .duplicateId (one_lt_count (known a (by simpa using old)) List.mem_cons_self)
    · simpa using ih (seen_insert known a) h

theorem misordered_of_checkOrder {g : Group} {before : Std.HashSet ChildRef}
    {l l' : List ChildRef} (known : ∀ r ∈ before, r ∈ l) (order : g.order = l ++ l')
    (h : g.checkOrder before l' = .error flaw) : g.Misordered flaw := by
  induction l' generalizing before l with
  | nil => cases h
  | cons r rest ih =>
    rw [checkOrder] at h
    split at h
    · rename_i old
      obtain rfl := Except.error.inj h
      apply Misordered.twice
      rw [order]
      exact one_lt_count (known r (by simpa using old)) List.mem_cons_self
    · split at h
      · exact ih (seen_insert known r) (by simp [order]) h
      · rename_i missing
        obtain rfl := Except.error.inj h
        exact .notHeld (by simp [order]) (mt holds_iff.2 missing)

theorem flawed_of_checkOwn {g : Group} (known : ∀ id ∈ seen, id ∈ front)
    (h : checkOwn seen g = .error flaw) : Flawed (front ++ g.ownIds) [g] flaw := by
  unfold checkOwn at h
  split at h
  · rename_i old
    obtain rfl := Except.error.inj h
    exact .duplicateId (one_lt_count (known g.id (by simpa using old)) List.mem_cons_self)
  · dsimp only at h
    split at h
    · rename_i count
      obtain rfl := Except.error.inj h
      exact .order List.mem_cons_self (.length count)
    · split at h
      · rename_i entries
        obtain rfl := Except.error.inj h
        have none : ∀ r ∈ (∅ : Std.HashSet ChildRef), r ∈ [] := by simp
        exact .order List.mem_cons_self (misordered_of_checkOrder none rfl entries)
      · simpa [ownIds] using flawed_of_checkFresh (seen_insert known g.id) h

theorem flawed_of_checkAllFrom {gs : List Group}
    (each : ∀ g ∈ gs, ∀ seen front, (∀ id ∈ seen, id ∈ front) → checkFrom seen g = .error flaw →
      Flawed (front ++ g.ids) g.family flaw)
    (known : ∀ id ∈ seen, id ∈ front) (h : checkAllFrom seen gs = .error flaw) :
    Flawed (front ++ gs.flatMap ids) (gs.flatMap family) flaw := by
  induction gs generalizing seen front with
  | nil => cases h
  | cons g rest ih =>
    obtain ⟨own, others⟩ := List.forall_mem_cons.1 each
    rw [checkAllFrom] at h
    rw [List.flatMap_cons, List.flatMap_cons, ← List.append_assoc]
    split at h
    · rename_i stopped
      obtain rfl := Except.error.inj h
      exact (own seen front known stopped).mono (List.sublist_append_left ..)
        fun x hx => List.mem_append_left _ hx
    · rename_i middle passed
      obtain ⟨-, entered⟩ := enters_of_checkFrom g seen middle passed
      exact (ih others (entered.adds.known known) h).mono (List.Sublist.refl _)
        fun x hx => List.mem_append_right _ hx

/-- The flaw that stops the check at a part of an outline is one of that part or of its ids together
with those in front. -/
theorem flawed_of_checkFrom (g : Group) : ∀ seen front, (∀ id ∈ seen, id ∈ front) →
    checkFrom seen g = .error flaw → Flawed (front ++ g.ids) g.family flaw := by
  induction g using induct with
  | step g ih =>
    intro seen front known h
    rw [ids_eq, family_eq, ← List.append_assoc]
    obtain ⟨id, j, cs, gs, order⟩ := g
    rw [checkFrom] at h
    split at h
    · rename_i stopped
      obtain rfl := Except.error.inj h
      exact (flawed_of_checkOwn known stopped).mono (List.sublist_append_left ..) (by simp)
    · rename_i middle own
      obtain ⟨-, entered⟩ := enters_of_checkOwn own
      exact (flawed_of_checkAllFrom ih (entered.adds.known known) h).mono (List.Sublist.refl _)
        fun x hx => List.mem_cons_of_mem _ hx

/-- The flaw that is reported is there. -/
theorem flawed_of_check {g : Group} (h : g.checkIntegrity = .error flaw) :
    Flawed g.ids g.family flaw := by
  have none : ∀ id ∈ (∅ : Std.HashSet NodeId), id ∈ [] := by simp
  unfold checkIntegrity at h
  cases checked : checkFrom ∅ g with
  | ok after =>
    rw [checked] at h
    cases h
  | error found =>
    rw [checked] at h
    obtain rfl := Except.error.inj h
    exact flawed_of_checkFrom g ∅ [] none checked

theorem Intact.not_flawed {g : Group} (hg : g.Intact) : ¬ Flawed g.ids g.family flaw := by
  intro h
  cases h with
  | @duplicateId id twice =>
    have once := List.nodup_iff_count_le_one.1 hg.unique id
    omega
  | @order x _ hx wrong =>
    have ordered := hg.ordered x hx
    cases wrong with
    | length differ =>
      have same := ordered.length_eq
      simp only [refs, List.length_append, List.length_map] at same
      exact differ same.symm
    | @twice r again =>
      have refs := nodup_refs (nodup_of_mem hx hg.unique)
      have once := List.nodup_iff_count_le_one.1 (ordered.nodup_iff.2 refs) r
      omega
    | notHeld entry missing => exact missing (ordered.mem_iff.1 entry)

end

theorem Intact.check {g : Group} (hg : g.Intact) : g.checkIntegrity = .ok () := by
  cases checked : g.checkIntegrity with
  | ok => rfl
  | error flaw => exact absurd (flawed_of_check checked) hg.not_flawed

/-- The check finds no flaw exactly in the intact outlines. -/
theorem check_iff {g : Group} : g.checkIntegrity = .ok () ↔ g.Intact := by
  refine ⟨fun h => ?_, Intact.check⟩
  unfold checkIntegrity at h
  cases checked : checkFrom ∅ g with
  | error flaw =>
    rw [checked] at h
    cases h
  | ok after =>
    obtain ⟨ordered, entered⟩ := enters_of_checkFrom g ∅ after checked
    exact ⟨entered.unique, ordered⟩

/-- Whatever the outline is made of, the check finds no flaw in it exactly if no id is twice in it
and every group, wherever it is held, has in its order one entry for each of its conditions and
subgroups and no others; and a flaw that it finds is there. -/
theorem checkIntegrity_exact (g : Group) :
    (g.checkIntegrity = .ok () ↔
      g.ids.Nodup ∧ ∀ x ∈ g.family, x.order.Perm
        (x.conditions.map (fun c => ⟨.condition, c.id⟩) ++
          x.groups.map (fun h => ⟨.group, h.id⟩))) ∧
      ∀ flaw, g.checkIntegrity = .error flaw → Flawed g.ids g.family flaw := by
  constructor
  · rw [check_iff]
    constructor
    · intro hg
      exact ⟨hg.unique, hg.ordered⟩
    · intro ⟨unique, ordered⟩
      exact ⟨unique, ordered⟩
  · intro flaw stopped
    exact flawed_of_check stopped

end FieldFilter.Group
