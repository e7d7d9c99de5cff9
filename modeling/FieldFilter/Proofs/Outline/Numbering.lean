import FieldFilter.Proofs.Outline.Pruned

/-!
# The row of ids that are drawn

Reading an expression draws the ids for its tree in the order in which the nodes stand, a group
before its children, and none is left out (`Reads.row`). So the first id alone decides about all of
them: with a later one every id is as much later. What is skipped draws no id. An element that is
skipped can be left out of its group, however deep the group is (`Thinned`), and the same outline is
read, id by id (`Thinned.same_outline`).
-/

namespace FieldFilter.Reading

open FieldFilter.Group

/-- What is neither a group nor a condition on a readable field. -/
inductive Skipped : Json → Prop
  | other {v : Json} : (∀ j, Expression.head v ≠ .group j) →
      (∀ op, Expression.head v ≠ .condition op) → Skipped v
  | nameless (op : Operator) {arguments : List Json} :
      (∀ reference ∈ arguments.head?, Expression.fieldName? reference = none) →
      Skipped (.arr (.str op.token :: arguments))

/-- The second expression is the first one without an element of one of its groups, which is
skipped. -/
inductive Thinned : Json → Json → Prop
  | here (j : Junction) (before rest : List Json) {v : Json} : Skipped v →
      Thinned (.arr (.str j.token :: (before ++ v :: rest)))
        (.arr (.str j.token :: (before ++ rest)))
  | inside (j : Junction) (before rest : List Json) {c c' : Json} : Thinned c c' →
      Thinned (.arr (.str j.token :: (before ++ c :: rest)))
        (.arr (.str j.token :: (before ++ c' :: rest)))

/-! ## Ids -/

/-- A group takes the id before those of its children. -/
theorem Reads.ids_group {vs : List Json} {is : List Item} {n m : NodeId} {k : Nat}
    (h : Reads (n + 1) vs is m) (row : is.flatMap (·.tree.ids) = List.range' (n + 1) k)
    (j : Junction) : (ofItems n j is).tree.ids = List.range' n (k + 1) := by
  rw [h.tree_group, Tree.ids_group, List.flatMap_map, row, List.range'_succ]

/-- The ids of the items that were read are the next ones in a row. -/
theorem Reads.row {vs : List Json} {is : List Item} {n m : NodeId} (h : Reads n vs is m) :
    ∃ k, m = n + k ∧ is.flatMap (·.tree.ids) = List.range' n k := by
  induction h with
  | nil n => exact ⟨0, rfl, rfl⟩
  | other _ _ _ ih => exact ih
  | nameless _ _ _ ih => exact ih
  | @condition _ _ _ _ c _ n _ _ read _ ih =>
    obtain ⟨k, rfl, row⟩ := ih
    obtain ⟨_, _, _, -, -, rfl⟩ := condition?_eq_some read
    refine ⟨k + 1, by rw [Nat.add_assoc, Nat.add_comm 1], ?_⟩
    rw [List.flatMap_cons, row, List.range'_succ]
    rfl
  | @group _ j _ _ inner is n _ _ _ first _ ih ih' =>
    obtain ⟨k, rfl, row⟩ := ih
    obtain ⟨k', rfl, row'⟩ := ih'
    have own : (Item.group (ofItems n j inner)).tree.ids = List.range' n (k + 1) :=
      first.ids_group row j
    have next : n + 1 + k = n + (k + 1) := by rw [Nat.add_assoc, Nat.add_comm 1]
    refine ⟨k + 1 + k', by rw [next, Nat.add_assoc], ?_⟩
    rw [List.flatMap_cons, own, row', next, List.range'_append_1]

/-- As many ids are drawn as the outline has nodes, each before those below it. -/
theorem ids_ofExpression (e : Json) (n : NodeId) :
    (ofExpression e n).root.tree.ids = List.range' n (ofExpression e n).root.size ∧
      (ofExpression e n).next = n + (ofExpression e n).root.size := by
  obtain ⟨is, root, read⟩ := ofExpression_reads e n
  obtain ⟨k, next, row⟩ := read.row
  have ids : (ofExpression e n).root.tree.ids = List.range' n (k + 1) := by
    rw [root]
    exact read.ids_group row _
  have size : (ofExpression e n).root.size = k + 1 := by
    have count := congrArg List.length ids
    rwa [Tree.ids, List.length_map, length_nodes_tree (intact_ofExpression e n),
      List.length_range'] at count
  rw [size]
  exact ⟨ids, by rw [next, Nat.add_assoc, Nat.add_comm 1]⟩

/-! ## Elements that are skipped -/

theorem condition?_eq_none {op : Operator} {arguments : List Json}
    (unread : ∀ reference ∈ arguments.head?, Expression.fieldName? reference = none)
    (n : NodeId) : condition? op arguments n = none := by
  cases arguments with
  | nil => rfl
  | cons reference values => simp [condition?, unread reference rfl]

/-- Nothing is read from an element that is skipped. -/
theorem Skipped.reads {v : Json} (skipped : Skipped v) {rest : List Json} {is : List Item}
    {n m : NodeId} (h : Reads n (v :: rest) is m) : Reads n rest is m := by
  cases h with
  | other _ _ h => exact h
  | nameless _ _ h => exact h
  | condition known read =>
    cases skipped with
    | other _ hc => exact absurd known (hc _)
    | nameless op unread =>
      rw [condition?_eq_none unread] at read
      cases read
  | group known =>
    cases skipped with
    | other hg => exact absurd known (hg _)
    | nameless op =>
      rw [Expression.headOfToken_condition_iff.2 rfl] at known
      cases known

/-- Elements that are read as others are can take their place behind any elements. -/
theorem reads_behind {vs ws : List Json}
    (each : ∀ {is n m}, Reads n vs is m → Reads n ws is m) (before : List Json) :
    ∀ {is n m}, Reads n (before ++ vs) is m → Reads n (before ++ ws) is m := by
  induction before with
  | nil => exact each
  | cons v before ih =>
    intro is n m h
    cases h with
    | other hg hc h => exact .other hg hc (ih h)
    | nameless known unread h => exact .nameless known unread (ih h)
    | condition known read h => exact .condition known read (ih h)
    | group known inner h => exact .group known inner (ih h)

/-- A group is read as one with other elements if these are read as its own. -/
theorem reads_group {vs ws : List Json} (each : ∀ {is n m}, Reads n vs is m → Reads n ws is m)
    (j : Junction) {rest : List Json} {is : List Item} {n m : NodeId}
    (h : Reads n (.arr (.str j.token :: vs) :: rest) is m) :
    Reads n (.arr (.str j.token :: ws) :: rest) is m := by
  have own : Expression.headOfToken j.token = .group j := Expression.headOfToken_group_iff.2 rfl
  cases h with
  | other hg => exact absurd own (hg j)
  | nameless known => cases own.symm.trans known
  | condition known => cases own.symm.trans known
  | group known inner h => exact .group known (each inner) h

theorem Thinned.reads {e e' : Json} (h : Thinned e e') {rest : List Json} :
    ∀ {is n m}, Reads n (e :: rest) is m → Reads n (e' :: rest) is m := by
  induction h generalizing rest with
  | here j before _ skipped => exact reads_group (reads_behind skipped.reads before) j
  | inside j before _ _ ih => exact reads_group (reads_behind ih before) j

theorem Thinned.groups {e e' : Json} (h : Thinned e e') :
    ∃ j vs ws, e = .arr (.str (Junction.token j) :: vs) ∧ e' = .arr (.str j.token :: ws) := by
  cases h with
  | here j => exact ⟨j, _, _, rfl, rfl⟩
  | inside j => exact ⟨j, _, _, rfl, rfl⟩

/-- A thinned expression is read into the same outline, and the same ids are drawn for it. -/
theorem Thinned.same_outline {e e' : Json} (h : Thinned e e') (n : NodeId) :
    (ofExpression e' n).root = (ofExpression e n).root ∧
      (ofExpression e' n).next = (ofExpression e n).next := by
  obtain ⟨j, vs, ws, rfl, rfl⟩ := h.groups
  have whole := h.reads (reads_ofExpression j vs n)
  obtain ⟨root, next⟩ := whole.unique (reads_ofExpression j ws n)
  exact ⟨Item.group.inj (List.singleton_inj.1 root.symm), next.symm⟩

/-- With a first id that is later by `d`, all ids are, and the same is written. -/
theorem ofExpression_add (e : Json) (n d : NodeId) :
    (ofExpression e (n + d)).root = (ofExpression e n).root.renumber (· + d) ∧
      (ofExpression e (n + d)).root.expression? = (ofExpression e n).root.expression? := by
  have apart : Function.Injective (· + d : NodeId → NodeId) := fun a b => Nat.add_right_cancel
  have shifted := ofExpression_renumber e (f := (· + d)) (n := n)
    fun x _ => Nat.add_right_comm x 1 d
  exact ⟨shifted, by rw [shifted, expression?_renumber apart]⟩

/-- Whatever is read, the outline is intact; its ids, each before those below it, are the next ones
in a row, one for every node, and the next id to draw is the one behind them. So with another first
id the outline differs by the same shift of all ids, and the same is written of it; and without
elements that are skipped, in whatever group of the expression, the same outline is read. -/
theorem ofExpression_numbered (e : Json) (n : NodeId) :
    (ofExpression e n).root.checkIntegrity = .ok () ∧
      (ofExpression e n).root.tree.ids = List.range' n (ofExpression e n).root.size ∧
      (ofExpression e n).next = n + (ofExpression e n).root.size ∧
      (∀ d, (ofExpression e (n + d)).root = (ofExpression e n).root.renumber (· + d) ∧
        (ofExpression e (n + d)).root.expression? = (ofExpression e n).root.expression?) ∧
      ∀ e', Thinned e e' → (ofExpression e' n).root = (ofExpression e n).root ∧
        (ofExpression e' n).next = (ofExpression e n).next := by
  obtain ⟨ids, next⟩ := ids_ofExpression e n
  exact ⟨(intact_ofExpression e n).check, ids, next, ofExpression_add e n,
    fun e' thinned => thinned.same_outline n⟩

/-- A group with a number, a group, a condition on no field and a condition; the inner group holds a
condition and the given elements. -/
def littered (inner : List Json) : Json :=
  .arr [.str "any", .int 7,
    .arr (.str "all" :: .arr [.str "has", Expression.fieldReference "a"] :: inner),
    .arr [.str "==", .str "a", .int 1], .arr [.str "has", Expression.fieldReference "b"]]

/-- Four nodes are read from seven elements, with the ids from 5 to 8. -/
theorem ofExpression_numbered_littered :
    (ofExpression (littered [.arr []]) 5).root.tree.ids = [5, 6, 7, 8] ∧
      (ofExpression (littered [.arr []]) 5).next = 9 ∧
      Thinned (littered [.arr []]) (littered []) ∧
      (ofExpression (littered []) 5).root = (ofExpression (littered [.arr []]) 5).root := by
  have thinned : Thinned (littered [.arr []]) (littered []) :=
    .inside .any [.int 7] _ (.here .all [_] [] (.other nofun nofun))
  obtain ⟨-, ids, next, -, skipped⟩ := ofExpression_numbered (littered [.arr []]) 5
  exact ⟨ids, next, thinned, (skipped _ thinned).1⟩

end FieldFilter.Reading
