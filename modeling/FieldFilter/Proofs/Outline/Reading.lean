import FieldFilter.Outline.Reading
import FieldFilter.Proofs.Expression
import FieldFilter.Proofs.Json.Values
import FieldFilter.Proofs.Outline.Items

/-!
# What reading gives

`Reads n vs is m` says which items are read from the elements `vs` and that the ids from `n` up to
`m` are drawn for them. Apart from what it reports, reading an expression is that: the outline is
the group of the items read from its parts (`ofExpression_reads`). The ids drawn are the next ones
in a row and every group orders its children (`Reads.numbered`), so the outline is intact
(`intact_ofExpression`).
-/

namespace FieldFilter.Reading

open FieldFilter.Group

/-- From the elements the items are read, with the ids from the first number up to the last. -/
inductive Reads : NodeId → List Json → List Item → NodeId → Prop
  | nil (n : NodeId) : Reads n [] [] n
  /-- neither a group nor a condition -/
  | other {v : Json} {rest : List Json} {is : List Item} {n m : NodeId} :
      (∀ j, Expression.head v ≠ .group j) → (∀ op, Expression.head v ≠ .condition op) →
      Reads n rest is m → Reads n (v :: rest) is m
  /-- a condition without a readable field -/
  | nameless {token : String} {op : Operator} {arguments rest : List Json} {is : List Item}
      {n m : NodeId} : Expression.headOfToken token = .condition op →
      condition? op arguments n = none → Reads n rest is m →
      Reads n (.arr (.str token :: arguments) :: rest) is m
  | condition {token : String} {op : Operator} {arguments rest : List Json} {c : Condition}
      {is : List Item} {n m : NodeId} : Expression.headOfToken token = .condition op →
      condition? op arguments n = some c → Reads (n + 1) rest is m →
      Reads n (.arr (.str token :: arguments) :: rest) (.condition c :: is) m
  | group {token : String} {j : Junction} {arguments rest : List Json} {inner is : List Item}
      {n k m : NodeId} : Expression.headOfToken token = .group j → Reads (n + 1) arguments inner k →
      Reads k rest is m →
      Reads n (.arr (.str token :: arguments) :: rest) (.group (ofItems n j inner) :: is) m

/-- The junction of the root that an expression is read into, and the elements that are read. A
condition by itself is put into a group of all. -/
def parts (e : Json) : Junction × List Json :=
  match Expression.head e, e with
  | .group j, .arr (_ :: arguments) => (j, arguments)
  | .condition _, e => (.all, [e])
  | _, _ => (.all, [])

theorem parts_cases (e : Json) :
    (∃ j token arguments, e = .arr (.str token :: arguments) ∧
        Expression.headOfToken token = .group j ∧ parts e = (j, arguments)) ∨
      (∃ op, Expression.head e = .condition op ∧ parts e = (.all, [e])) ∨
      (∀ j, Expression.head e ≠ .group j) ∧ (∀ op, Expression.head e ≠ .condition op) ∧
        parts e = (.all, []) := by
  unfold parts
  cases head : Expression.head e with
  | group j =>
    obtain ⟨token, arguments, rfl, known⟩ := Expression.exists_of_head_group head
    exact .inl ⟨j, token, arguments, rfl, known, rfl⟩
  | condition op => exact .inr (.inl ⟨op, rfl, rfl⟩)
  | empty => exact .inr (.inr ⟨nofun, nofun, rfl⟩)
  | unknown => exact .inr (.inr ⟨nofun, nofun, rfl⟩)

/-! ## The draft -/

namespace Draft

/-- The draft holds the given items, and `n` is the next id to draw. -/
structure Holds (d : Draft) (is : List Item) (n : NodeId) : Prop where
  conditions : d.conditions = (is.filterMap Item.condition?).reverse
  groups : d.groups = (is.filterMap Item.group?).reverse
  order : d.order = (is.map Item.ref).reverse
  next : d.next = n

variable {d inner : Draft} {is : List Item} {n m : NodeId}

theorem holds_start (n : NodeId) (events : List Event) : (start n events).Holds [] n :=
  ⟨rfl, rfl, rfl, rfl⟩

theorem Holds.report (h : d.Holds is n) (e : Event) : (d.report e).Holds is n :=
  ⟨h.conditions, h.groups, h.order, h.next⟩

theorem Holds.addCondition (h : d.Holds is n) (c : Condition) :
    (d.addCondition c).Holds (is ++ [.condition c]) (n + 1) where
  conditions := by simp [Draft.addCondition, h.conditions]
  groups := by simp [Draft.addCondition, h.groups, List.filterMap_cons]
  order := by simp [Draft.addCondition, h.order, Item.ref, Item.kind, Item.id]
  next := by rw [Draft.addCondition, h.next]

theorem Holds.addGroup (h : d.Holds is n) (g : Group) (hi : inner.next = m) :
    (d.addGroup inner g).Holds (is ++ [.group g]) m where
  conditions := by simp [Draft.addGroup, h.conditions, List.filterMap_cons]
  groups := by simp [Draft.addGroup, h.groups]
  order := by simp [Draft.addGroup, h.order, Item.ref, Item.kind, Item.id]
  next := hi

theorem Holds.group (h : d.Holds is n) (id : NodeId) (j : Junction) :
    d.group id j = ofItems id j is := by
  rw [Draft.group, h.conditions, h.groups, h.order, List.reverse_reverse, List.reverse_reverse,
    List.reverse_reverse, ofItems]

end Draft

/-- Adds the items of one element in front of those of the others. -/
theorem reads_cons_of_each {v : Json} {rest : List Json} {is : List Item} {n m : NodeId}
    {first : List Item} {k : NodeId} (h : Reads n [v] first k) (h' : Reads k rest is m) :
    Reads n (v :: rest) (first ++ is) m := by
  cases h with
  | other hg hc h => cases h; exact .other hg hc h'
  | nameless head unread h => cases h; exact .nameless head unread h'
  | condition head read h => cases h; exact .condition head read h'
  | group head inner h => cases h; exact .group head inner h'

/-- Reading elements adds the items read to the draft, if reading each one does. -/
theorem elements_holds_of_each {vs : List Json}
    (each : ∀ v ∈ vs, ∀ parent index (d : Draft) is n, d.Holds is n →
      ∃ new m, Reads n [v] new m ∧ (element parent index d v).Holds (is ++ new) m)
    (parent : NodeId) (index : Nat) {d : Draft} {is : List Item} {n : NodeId} (h : d.Holds is n) :
    ∃ new m, Reads n vs new m ∧ (elements parent index d vs).Holds (is ++ new) m := by
  induction vs generalizing index d is n with
  | nil => exact ⟨[], n, .nil n, by simpa [elements] using h⟩
  | cons v rest ih =>
    obtain ⟨first, k, read, held⟩ := each v List.mem_cons_self parent index d is n h
    obtain ⟨others, m, read', held'⟩ :=
      ih (fun w hw => each w (List.mem_cons_of_mem _ hw)) (index + 1) held
    refine ⟨first ++ others, m, reads_cons_of_each read read', ?_⟩
    rw [elements, ← List.append_assoc]
    exact held'

/-- What is no group and no condition leaves the draft with the same items. -/
theorem holds_report_of_other {v : Json} {d : Draft} {is : List Item} {n : NodeId} (e : Event)
    (hg : ∀ j, Expression.head v ≠ .group j) (hc : ∀ op, Expression.head v ≠ .condition op)
    (h : d.Holds is n) : ∃ new m, Reads n [v] new m ∧ (d.report e).Holds (is ++ new) m :=
  ⟨[], n, .other hg hc (.nil n), by simpa using h.report e⟩

/-- Reading an element adds the item read from it to the draft. -/
theorem element_holds (v : Json) : ∀ parent index (d : Draft) is n, d.Holds is n →
    ∃ new m, Reads n [v] new m ∧ (element parent index d v).Holds (is ++ new) m := by
  induction v using Json.arrayInduct with
  | other v hv =>
    intro parent index d is n h
    cases v with
    | arr => cases hv
    | _ =>
      rw [element]
      · exact holds_report_of_other _ (by simp [Expression.head]) (by simp [Expression.head]) h
      · simp
  | arr vs ih =>
    intro parent index d is n h
    rcases vs with - | ⟨v, arguments⟩
    · rw [element]
      · exact holds_report_of_other _ (by simp [Expression.head]) (by simp [Expression.head]) h
      · simp
    · cases v with
      | str token =>
        rw [element]
        cases head : Expression.headOfToken token with
        | group j =>
          obtain ⟨inner, k, read, held⟩ := elements_holds_of_each
            (fun w hw => ih w (List.mem_cons_of_mem _ hw)) d.next 1
            (Draft.holds_start (d.next + 1) d.events)
          rw [List.nil_append] at held
          rw [h.next] at read held
          refine ⟨[.group (ofItems n j inner)], k, .group head read (.nil k), ?_⟩
          simp only [h.next, held.group]
          exact h.addGroup _ held.next
        | condition op =>
          simp only [h.next]
          cases read : condition? op arguments n with
          | some c => exact ⟨[.condition c], n + 1, .condition head read (.nil _), h.addCondition c⟩
          | none => exact ⟨[], n, .nameless head read (.nil n), by simpa using h.report _⟩
        | empty | unknown =>
          exact holds_report_of_other _ (by simp [Expression.head, head])
            (by simp [Expression.head, head]) h
      | _ =>
        rw [element]
        · exact holds_report_of_other _ (by simp [Expression.head]) (by simp [Expression.head]) h
        · simp

theorem elements_holds (vs : List Json) (parent : NodeId) (index : Nat) {d : Draft}
    {is : List Item} {n : NodeId} (h : d.Holds is n) :
    ∃ new m, Reads n vs new m ∧ (elements parent index d vs).Holds (is ++ new) m :=
  elements_holds_of_each (fun v _ => element_holds v) parent index h

/-! ## The outline -/

/-- The outline of an expression is the group of the items read from its parts. -/
theorem ofExpression_reads (e : Json) (n : NodeId) :
    ∃ is, (ofExpression e n).root = ofItems n (parts e).1 is ∧
      Reads (n + 1) (parts e).2 is (ofExpression e n).next := by
  have nothing : Reads (n + 1) [] [] (n + 1) := .nil (n + 1)
  cases e with
  | arr vs =>
    rcases vs with - | ⟨v, arguments⟩
    · exact ⟨[], rfl, nothing⟩
    · cases v with
      | str token =>
        cases head : Expression.headOfToken token with
        | group j =>
          obtain ⟨is, m, read, held⟩ :=
            elements_holds arguments n 1 (Draft.holds_start (n + 1) [])
          rw [List.nil_append] at held
          refine ⟨is, ?_, ?_⟩
          · simpa [ofExpression, parts, Expression.head, head] using held.group n j
          · simpa [ofExpression, parts, Expression.head, head, held.next] using read
        | condition op =>
          simp only [ofExpression, parts, Expression.head, head]
          cases read : condition? op arguments (n + 1) with
          | some c => exact ⟨[.condition c], rfl, .condition head read (.nil _)⟩
          | none => exact ⟨[], rfl, .nameless head read nothing⟩
        | empty | unknown =>
          refine ⟨[], ?_, ?_⟩
          · simp [ofExpression, parts, Expression.head, head, wrapped, ofItems]
          · simpa [ofExpression, parts, Expression.head, head] using nothing
      | _ => exact ⟨[], rfl, nothing⟩
  | _ => exact ⟨[], rfl, nothing⟩

theorem condition?_eq_some {op : Operator} {arguments : List Json} {n : NodeId} {c : Condition}
    (h : condition? op arguments n = some c) :
    ∃ reference values field, arguments = reference :: values ∧
      Expression.fieldName? reference = some field ∧
      c = ⟨n, field, op, if op.isUnary then none else values.head?⟩ := by
  unfold condition? at h
  split at h
  · cases h
  · rename_i reference values
    obtain ⟨field, named, rfl⟩ := Option.map_eq_some_iff.1 h
    exact ⟨reference, values, field, rfl, named, rfl⟩

/-! ## Numbering -/

/-- Between `n` and `m` every id is drawn once for these nodes, and all their groups are ordered. -/
structure Numbered (is : List Item) (n m : NodeId) : Prop where
  drawn : ∃ k, m = n + k ∧ (is.flatMap Item.ids).Perm (List.range' n k)
  ordered : ∀ i ∈ is, ∀ x ∈ i.family, x.Ordered

theorem numbered_nil (n : NodeId) : Numbered [] n n where
  drawn := ⟨0, rfl, .nil⟩
  ordered := by simp

theorem Numbered.cons {i : Item} {is : List Item} {n k m : NodeId} (h : Numbered [i] n k)
    (h' : Numbered is k m) : Numbered (i :: is) n m where
  drawn := by
    obtain ⟨a, rfl, first⟩ := h.drawn
    obtain ⟨b, rfl, others⟩ := h'.drawn
    refine ⟨a + b, Nat.add_assoc n a b, ?_⟩
    rw [List.flatMap_singleton] at first
    rw [List.flatMap_cons, ← List.range'_append_1]
    exact first.append others
  ordered := by
    intro x hx
    obtain rfl | hx := List.mem_cons.1 hx
    · exact h.ordered x List.mem_cons_self
    · exact h'.ordered x hx

theorem numbered_condition (c : Condition) : Numbered [.condition c] c.id (c.id + 1) where
  drawn := ⟨1, rfl, .refl _⟩
  ordered := by simp [Item.family]

/-- A group takes the id before those of its items. -/
theorem Numbered.group {is : List Item} {n m : NodeId} (h : Numbered is (n + 1) m) (j : Junction) :
    Numbered [.group (ofItems n j is)] n m where
  drawn := by
    obtain ⟨k, rfl, drawn⟩ := h.drawn
    refine ⟨k + 1, by rw [Nat.add_assoc, Nat.add_comm 1], ?_⟩
    rw [List.flatMap_singleton, List.range'_succ]
    exact (ids_ofItems n j is).trans (drawn.cons n)
  ordered := by
    intro i hi x hx
    obtain rfl := List.mem_singleton.1 hi
    obtain rfl | ⟨i, hi, within⟩ := mem_family_ofItems hx
    · exact ordered_ofItems n j is
    · exact h.ordered i hi x within

theorem Reads.numbered {vs : List Json} {is : List Item} {n m : NodeId} (h : Reads n vs is m) :
    Numbered is n m := by
  induction h with
  | nil n => exact numbered_nil n
  | other _ _ _ ih => exact ih
  | nameless _ _ _ ih => exact ih
  | condition _ read _ ih =>
    obtain ⟨_, _, _, -, -, rfl⟩ := condition?_eq_some read
    exact (numbered_condition _).cons ih
  | @group _ j _ _ _ _ _ _ _ _ _ _ inner ih => exact (inner.group j).cons ih

/-- The items that were read are the children of their group as they stand. -/
theorem Reads.children_group {vs : List Json} {is : List Item} {n k m : NodeId} {j : Junction}
    (h : Reads n vs is m) : (ofItems k j is).children = is := by
  obtain ⟨l, -, drawn⟩ := h.numbered.drawn
  have ids := drawn.nodup_iff.2 List.nodup_range'
  rw [List.nodup_flatMap] at ids
  refine children_ofItems (List.pairwise_map.2 (ids.2.imp_of_mem fun {a b} _ _ apart same => ?_))
  exact apart a.id_mem_ids (same ▸ b.id_mem_ids)

/-- The ids of an outline that was read are the next ones in a row. -/
theorem ofExpression_ids (e : Json) (n : NodeId) :
    ∃ k, (ofExpression e n).next = n + k ∧ (ofExpression e n).root.ids.Perm (List.range' n k) := by
  obtain ⟨is, root, read⟩ := ofExpression_reads e n
  obtain ⟨k, next, drawn⟩ := (read.numbered.group (parts e).1).drawn
  rw [List.flatMap_singleton, ← root] at drawn
  exact ⟨k, next, drawn⟩

/-- An outline that was read is intact. -/
theorem intact_ofExpression (e : Json) (n : NodeId) : (ofExpression e n).root.Intact where
  unique := by
    obtain ⟨k, -, drawn⟩ := ofExpression_ids e n
    exact drawn.nodup_iff.2 List.nodup_range'
  ordered := by
    obtain ⟨is, root, read⟩ := ofExpression_reads e n
    rw [root]
    exact (read.numbered.group (parts e).1).ordered _ List.mem_cons_self

end FieldFilter.Reading
