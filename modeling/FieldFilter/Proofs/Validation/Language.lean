import FieldFilter.Proofs.Expression
import FieldFilter.Proofs.Json.Values
import FieldFilter.Proofs.Validation.Values
import FieldFilter.Validation.Check

/-!
# The language of the check

`Filter fields e` is the grammar of filters over a list of fields, and `Enclosed n g e` says that
the group `g` stands in `e` inside `n` others. The check accepts the expressions of the grammar in
which no group stands inside too many (`check_language`), and the check of a text those texts that
are short enough and mean such an expression. `Mistake` lists what the check finds at fault in a
condition, and `Faulty` what it finds in an expression, at whatever depth.
-/

namespace FieldFilter

namespace Validation

/-- The field is the first one with the key. -/
def First (fields : List Field) (key : String) (f : Field) : Prop :=
  ∃ before after, fields = before ++ f :: after ∧ f.key = key ∧ ∀ g ∈ before, g.key ≠ key

/-- The filters over some fields, however deep they nest. -/
inductive Filter (fields : List Field) : Json → Prop
  | empty : Filter fields (.arr [])
  | group (j : Junction) {children : List Json} : children ≠ [] →
      (∀ v ∈ children, Filter fields v) → Filter fields (.arr (.str j.token :: children))
  | condition (op : Operator) {key : String} {f : Field} {values : List Json} :
      First fields key f → op.supports f.type = true → Takes f.type op.valueKind values →
      Filter fields (.arr (.str op.token :: .arr [.str "get", .str key] :: values))

/-- The group stands in an expression inside `n` other groups. -/
inductive Enclosed : Nat → Json → Json → Prop
  | here (j : Junction) (children : List Json) :
      Enclosed 0 (.arr (.str j.token :: children)) (.arr (.str j.token :: children))
  | inside {n : Nat} {g v : Json} (j : Junction) {children : List Json} : v ∈ children →
      Enclosed n g v → Enclosed (n + 1) g (.arr (.str j.token :: children))

theorem first_iff {fields : List Field} {key : String} {f : Field} :
    Field.find? fields key = some f ↔ First fields key f := by
  unfold Field.find? First
  rw [List.find?_eq_some_iff_append]
  constructor
  · rintro ⟨same, before, after, split, others⟩
    exact ⟨before, after, split, by simpa using same, fun g hg => by simpa using others g hg⟩
  · rintro ⟨before, after, split, same, others⟩
    exact ⟨by simpa using same, before, after, split, fun g hg => by simpa using others g hg⟩

/-- What an operator takes has the operator's number of elements. -/
theorem Takes.length {t : DataType} {op : Operator} {values : List Json}
    (h : Takes t op.valueKind values) : values.length + 1 = op.arity := by
  unfold Operator.arity Operator.isUnary
  generalize op.valueKind = kind at h ⊢
  cases h <;> rfl

/-- The elements of a condition are checked one by one, as far as there are any. -/
theorem takes_of_check {field : String} {t : DataType} {op : Operator} {values : List Json}
    (count : values.length + 1 = op.arity)
    (h : (match values with
      | [] => Except.ok ()
      | value :: _ => checkValue field t op value) = .ok ()) : Takes t op.valueKind values := by
  unfold Operator.arity at count
  split at count
  · rename_i unary
    obtain rfl := List.eq_nil_of_length_eq_zero (by omega : values.length = 0)
    have kind : op.valueKind = .none := by simpa [Operator.isUnary] using unary
    rw [kind]
    exact .none
  · rename_i binary
    obtain ⟨v, rfl⟩ := List.length_eq_one_iff.1 (by omega : values.length = 1)
    exact (checkValue_iff (by simpa using binary)).1 h

theorem check_of_takes {field : String} {t : DataType} {op : Operator} {v : Json}
    {rest : List Json} (h : Takes t op.valueKind (v :: rest)) :
    checkValue field t op v = .ok () := by
  have count := h.length
  unfold Operator.arity at count
  split at count
  · simp at count
  · rename_i binary
    obtain rfl := List.eq_nil_of_length_eq_zero (by simpa using count : rest.length = 0)
    exact (checkValue_iff (by simpa using binary)).2 h

theorem checkCondition_iff {fields : List Field} {op : Operator} {arguments : List Json} :
    checkCondition fields op arguments = .ok () ↔ ∃ key f values,
      arguments = Expression.fieldReference key :: values ∧ First fields key f ∧
        op.supports f.type = true ∧ Takes f.type op.valueKind values := by
  constructor
  · intro h
    unfold checkCondition at h
    split at h
    · cases h
    · rename_i count
      split at h
      · cases h
      · rename_i reference values
        split at h
        · cases h
        · rename_i name named
          split at h
          · cases h
          · rename_i f found
            split at h
            · rename_i supported
              refine ⟨name, f, values, ?_, first_iff.1 found, supported, ?_⟩
              · rw [Expression.fieldName?_eq_some_iff.1 named]
              · exact takes_of_check (by simpa using count) h
            · cases h
  · rintro ⟨key, f, values, rfl, first, supported, takes⟩
    unfold checkCondition
    rw [if_neg (by simpa using takes.length)]
    simp only [Expression.fieldName?_fieldReference, first_iff.2 first, supported, if_true]
    cases values with
    | nil => rfl
    | cons v rest => exact check_of_takes takes

/-- What is found at fault in the elements of a condition. -/
inductive Mistake (fields : List Field) (op : Operator) : List Json → Fault → Prop
  | arity {arguments : List Json} : arguments.length ≠ op.arity →
      Mistake fields op arguments (.wrongArity op arguments.length)
  | reference {v : Json} {values : List Json} : (∀ key, v ≠ Expression.fieldReference key) →
      Mistake fields op (v :: values) (.badFieldReference op (shown v))
  | field {key : String} {values : List Json} : (∀ f ∈ fields, f.key ≠ key) →
      Mistake fields op (Expression.fieldReference key :: values) (.unknownField (shownText key))
  | operator {key : String} {f : Field} {values : List Json} : First fields key f →
      op.supports f.type = false →
      Mistake fields op (Expression.fieldReference key :: values)
        (.unsupportedOperator op (shownText key) f.type)
  | value {key : String} {f : Field} {v : Json} {rest : List Json} {fault : Fault} :
      First fields key f → op.supports f.type = true → ¬ Takes f.type op.valueKind (v :: rest) →
      Misfit key f.type op v fault →
      Mistake fields op (Expression.fieldReference key :: v :: rest) fault

theorem mistake_of_check {fields : List Field} {op : Operator} {arguments : List Json}
    {fault : Fault} (h : checkCondition fields op arguments = .error fault) :
    Mistake fields op arguments fault := by
  unfold checkCondition at h
  split at h
  · rename_i count
    obtain rfl := Except.error.inj h
    exact .arity count
  · rename_i count
    split at h
    · -- every operator has an element besides itself
      unfold Operator.arity at count
      split at count <;> simp at count
    · rename_i reference values
      split at h
      · rename_i unnamed
        obtain rfl := Except.error.inj h
        refine .reference fun key same => ?_
        rw [same, Expression.fieldName?_fieldReference] at unnamed
        cases unnamed
      · rename_i key named
        rw [Expression.fieldName?_eq_some_iff.1 named]
        split at h
        · rename_i missing
          obtain rfl := Except.error.inj h
          exact .field fun f hf => by simpa using List.find?_eq_none.1 missing f hf
        · rename_i f found
          have first := first_iff.1 found
          split at h
          · rename_i supported
            split at h
            · cases h
            · rename_i v rest
              refine .value first supported (fun takes => ?_) (misfit_of_checkValue h)
              rw [check_of_takes takes] at h
              cases h
          · rename_i unsupported
            obtain rfl := Except.error.inj h
            exact .operator first (by simpa using unsupported)

theorem checkChildren_iff {fields : List Field} {depth : Nat} {j : Junction} {index : Nat}
    {vs : List Json} : checkChildren fields depth j index vs = .ok () ↔
      ∀ v ∈ vs, v.isArray = true ∧ checkAt fields depth v = .ok () := by
  induction vs generalizing index with
  | nil => simp [checkChildren]
  | cons v rest ih =>
    rw [List.forall_mem_cons, ← @ih (index + 1), checkChildren]
    split
    · rename_i array
      split
      · rename_i checked
        exact ⟨fun others => ⟨⟨array, checked⟩, others⟩, And.right⟩
      · rename_i fault found
        rw [found]
        exact ⟨nofun, nofun⟩
    · rename_i other
      exact ⟨nofun, fun all => absurd all.1.1 other⟩

theorem checkAt_group_iff {fields : List Field} {depth : Nat} {j : Junction} {vs : List Json} :
    checkAt fields depth (.arr (.str j.token :: vs)) = .ok () ↔
      depth < Limits.filterNesting ∧ vs ≠ [] ∧
        ∀ v ∈ vs, v.isArray = true ∧ checkAt fields (depth + 1) v = .ok () := by
  rw [checkAt, Expression.headOfToken_group_iff.2 rfl]
  dsimp only
  by_cases deep : Limits.filterNesting ≤ depth
  · rw [if_pos deep]
    exact ⟨nofun, fun h => absurd h.1 (Nat.not_lt.2 deep)⟩
  · rw [if_neg deep]
    cases vs with
    | nil => exact ⟨nofun, fun h => absurd rfl h.2.1⟩
    | cons v rest =>
      rw [if_neg (by simp), checkChildren_iff]
      exact ⟨fun all => ⟨Nat.lt_of_not_le deep, nofun, all⟩, fun h => h.2.2⟩

theorem checkAt_condition {fields : List Field} {depth : Nat} {op : Operator}
    {arguments : List Json} : checkAt fields depth (.arr (.str op.token :: arguments)) =
      checkCondition fields op arguments := by
  rw [checkAt, Expression.headOfToken_condition_iff.2 rfl]

theorem checkAt_condition_iff {fields : List Field} {depth : Nat} {op : Operator}
    {arguments : List Json} : checkAt fields depth (.arr (.str op.token :: arguments)) = .ok () ↔
      checkCondition fields op arguments = .ok () := by
  rw [checkAt_condition]

/-- What is accepted is the empty filter, a group or a condition. -/
theorem checkAt_cases {fields : List Field} {depth : Nat} {e : Json}
    (h : checkAt fields depth e = .ok ()) : e = .arr [] ∨
      (∃ (j : Junction) (vs : List Json), e = .arr (.str j.token :: vs)) ∨
        ∃ (op : Operator) (arguments : List Json), e = .arr (.str op.token :: arguments) := by
  unfold checkAt at h
  split at h
  · exact .inl rfl
  · rename_i token rest
    split at h
    · rename_i j head
      rw [Expression.headOfToken_group_iff.1 head]
      exact .inr (.inl ⟨j, rest, rfl⟩)
    · rename_i op head
      rw [Expression.headOfToken_condition_iff.1 head]
      exact .inr (.inr ⟨op, rest, rfl⟩)
    · cases h
  · cases h
  · cases h

theorem Filter.isArray {fields : List Field} {e : Json} (h : Filter fields e) :
    e.isArray = true := by
  cases h <;> rfl

/-- Inside a group, groups are enclosed once more. -/
theorem enclosed_group_iff {j : Junction} {vs : List Json} {P : Nat → Prop} :
    (∀ n g, Enclosed n g (.arr (.str j.token :: vs)) → P n) ↔
      P 0 ∧ ∀ v ∈ vs, ∀ n g, Enclosed n g v → P (n + 1) := by
  constructor
  · intro all
    exact ⟨all 0 _ (.here j vs), fun v hv n g h => all (n + 1) g (.inside j hv h)⟩
  · rintro ⟨own, below⟩ n g h
    generalize he : Json.arr (.str j.token :: vs) = e at h
    cases h with
    | here => exact own
    | inside k hv h =>
      obtain ⟨-, rfl⟩ : _ ∧ vs = _ := by simpa using he
      exact below _ hv _ g h

/-- A condition encloses nothing. -/
theorem not_enclosed_condition {op : Operator} {arguments : List Json} {n : Nat} {g : Json} :
    ¬ Enclosed n g (.arr (.str op.token :: arguments)) := by
  intro h
  generalize he : Json.arr (.str op.token :: arguments) = e at h
  cases h with
  | here j children =>
    obtain ⟨same, -⟩ : op.token = j.token ∧ _ := by simpa using he
    exact Expression.token_ne j op same.symm
  | inside j =>
    obtain ⟨same, -⟩ : op.token = j.token ∧ _ := by simpa using he
    exact Expression.token_ne j op same.symm

theorem filter_group_iff {fields : List Field} {j : Junction} {vs : List Json} :
    Filter fields (.arr (.str j.token :: vs)) ↔ vs ≠ [] ∧ ∀ v ∈ vs, Filter fields v := by
  constructor
  · intro h
    generalize he : Json.arr (.str j.token :: vs) = e at h
    cases h with
    | empty => cases he
    | group k some all =>
      obtain ⟨-, rfl⟩ : _ ∧ vs = _ := by simpa using he
      exact ⟨some, all⟩
    | condition op =>
      obtain ⟨same, -⟩ : j.token = op.token ∧ _ := by simpa using he
      exact absurd same (Expression.token_ne j op)
  · rintro ⟨some, all⟩
    exact .group j some all

theorem filter_condition_iff {fields : List Field} {op : Operator} {arguments : List Json} :
    Filter fields (.arr (.str op.token :: arguments)) ↔
      checkCondition fields op arguments = .ok () := by
  rw [checkCondition_iff]
  constructor
  · intro h
    generalize he : Json.arr (.str op.token :: arguments) = e at h
    cases h with
    | empty => cases he
    | group j =>
      obtain ⟨same, -⟩ : op.token = j.token ∧ _ := by simpa using he
      exact absurd same.symm (Expression.token_ne j op)
    | condition other first supported takes =>
      obtain ⟨same, rfl⟩ : op.token = other.token ∧ arguments = _ := by simpa using he
      obtain rfl := Expression.token_injective same
      exact ⟨_, _, _, rfl, first, supported, takes⟩
  · rintro ⟨key, f, values, rfl, first, supported, takes⟩
    exact .condition op first supported takes

/-- Inside `depth` groups, the check accepts the filters that nest at most so much deeper. -/
theorem checkAt_iff (fields : List Field) (e : Json) : ∀ depth, checkAt fields depth e = .ok () ↔
    Filter fields e ∧ ∀ n g, Enclosed n g e → depth + n < Limits.filterNesting := by
  induction e using Json.arrayInduct with
  | other v hv =>
    intro depth
    refine ⟨fun h => ?_, fun h => ?_⟩
    · obtain rfl | ⟨_, _, rfl⟩ | ⟨_, _, rfl⟩ := checkAt_cases h <;> cases hv
    · rw [h.1.isArray] at hv
      cases hv
  | arr vs ih =>
    intro depth
    constructor
    · intro h
      obtain he | ⟨j, children, he⟩ | ⟨op, arguments, he⟩ := checkAt_cases h
      · rw [he]
        exact ⟨.empty, fun n g h => by cases h⟩
      · obtain rfl := Json.arr.inj he
        obtain ⟨room, some, all⟩ := checkAt_group_iff.1 h
        have each := fun v hv => (ih v (List.mem_cons_of_mem _ hv) (depth + 1)).1 (all v hv).2
        refine ⟨filter_group_iff.2 ⟨some, fun v hv => (each v hv).1⟩, ?_⟩
        refine enclosed_group_iff.2 ⟨room, fun v hv n g h => ?_⟩
        have := (each v hv).2 n g h
        omega
      · rw [he] at h ⊢
        exact ⟨filter_condition_iff.2 (checkAt_condition_iff.1 h),
          fun n g h => absurd h not_enclosed_condition⟩
    · rintro ⟨filter, room⟩
      generalize he : Json.arr vs = e at filter
      cases filter with
      | empty => rfl
      | group j some all =>
        obtain rfl := Json.arr.inj he
        obtain ⟨own, below⟩ := enclosed_group_iff.1 room
        refine checkAt_group_iff.2 ⟨own, some, fun v hv => ⟨(all v hv).isArray, ?_⟩⟩
        refine (ih v (List.mem_cons_of_mem _ hv) (depth + 1)).2 ⟨all v hv, fun n g h => ?_⟩
        have := below v hv n g h
        omega
      | condition op first supported takes =>
        exact checkAt_condition_iff.2 (checkCondition_iff.2 ⟨_, _, _, rfl, first, supported, takes⟩)

/-! ## Faults -/

/-- What is found at fault in an expression inside `depth` groups: that it is no array, its head, its
depth, that it has no children or one that is no array, what is at fault in a child, or in the
elements of a condition. -/
inductive Faulty (fields : List Field) : Nat → Json → Fault → Prop
  | notAnArray {depth : Nat} {v : Json} : v.isArray = false →
      Faulty fields depth v (.notAnArray v.typeName)
  | head {depth : Nat} {v : Json} {rest : List Json} : (∀ s, v ≠ .str s) →
      Faulty fields depth (.arr (v :: rest)) (.unknownOperator (shown v))
  | token {depth : Nat} {token : String} {rest : List Json} : (∀ j : Junction, token ≠ j.token) →
      (∀ op : Operator, token ≠ op.token) →
        Faulty fields depth (.arr (.str token :: rest)) (.unknownOperator (shownText token))
  | tooDeep {depth : Nat} (j : Junction) (children : List Json) : Limits.filterNesting ≤ depth →
      Faulty fields depth (.arr (.str j.token :: children))
        (.nestingTooDeep (depth + 1) Limits.filterNesting)
  | emptyGroup {depth : Nat} (j : Junction) :
      Faulty fields depth (.arr [.str j.token]) (.emptyGroup j)
  | child {depth : Nat} (j : Junction) {v : Json} {children : List Json} (index : Nat) :
      v ∈ children → v.isArray = false →
        Faulty fields depth (.arr (.str j.token :: children)) (.childNotArray j index v.typeName)
  | inside {depth : Nat} (j : Junction) {v : Json} {children : List Json} {fault : Fault} :
      v ∈ children → Faulty fields (depth + 1) v fault →
        Faulty fields depth (.arr (.str j.token :: children)) fault
  | condition {depth : Nat} (op : Operator) {arguments : List Json} {fault : Fault} :
      checkCondition fields op arguments = .error fault →
        Faulty fields depth (.arr (.str op.token :: arguments)) fault

section
variable {fields : List Field} {fault : Fault}

/-- A fault among the children of a group is that one of them is no array, or is one in a child. -/
theorem exists_of_checkChildren {depth : Nat} {j : Junction} {index : Nat} {vs : List Json}
    (h : checkChildren fields depth j index vs = .error fault) :
    ∃ v ∈ vs, (v.isArray = false ∧ ∃ i, fault = .childNotArray j i v.typeName) ∨
      checkAt fields depth v = .error fault := by
  induction vs generalizing index with
  | nil => cases h
  | cons v rest ih =>
    rw [checkChildren] at h
    split at h
    · split at h
      · obtain ⟨w, hw, found⟩ := ih h
        exact ⟨w, List.mem_cons_of_mem _ hw, found⟩
      · rename_i found
        obtain rfl := Except.error.inj h
        exact ⟨v, List.mem_cons_self, .inr found⟩
    · rename_i other
      obtain rfl := Except.error.inj h
      exact ⟨v, List.mem_cons_self, .inl ⟨by simpa using other, index, rfl⟩⟩

/-- A check that stops has found something at fault, at the expression itself or at one inside it. -/
theorem faulty_of_checkAt (e : Json) : ∀ depth, checkAt fields depth e = .error fault →
    Faulty fields depth e fault := by
  induction e using Json.arrayInduct with
  | other v hv =>
    intro depth h
    cases v with
    | arr => cases hv
    | _ =>
      obtain rfl := Except.error.inj h
      exact .notAnArray hv
  | arr vs ih =>
    intro depth h
    unfold checkAt at h
    split at h
    · cases h
    · rename_i token rest he
      obtain rfl := Json.arr.inj he
      split at h
      · rename_i j head
        rw [Expression.headOfToken_group_iff.1 head] at ih ⊢
        split at h
        · rename_i deep
          obtain rfl := Except.error.inj h
          exact .tooDeep j rest deep
        · split at h
          · rename_i none
            obtain rfl := Except.error.inj h
            obtain rfl := List.isEmpty_iff.1 none
            exact .emptyGroup j
          · obtain ⟨v, hv, ⟨other, index, rfl⟩ | found⟩ := exists_of_checkChildren h
            · exact .child j index hv other
            · exact .inside j hv (ih v (List.mem_cons_of_mem _ hv) (depth + 1) found)
      · rename_i op head
        rw [Expression.headOfToken_condition_iff.1 head]
        exact .condition op h
      · rename_i group condition
        obtain rfl := Except.error.inj h
        exact .token (fun j same => group j (Expression.headOfToken_group_iff.2 same))
          fun op same => condition op (Expression.headOfToken_condition_iff.2 same)
    · rename_i v rest text he
      obtain rfl := Json.arr.inj he
      obtain rfl := Except.error.inj h
      exact .head text
    · rename_i empty _ filled
      cases vs with
      | nil => exact absurd rfl empty
      | cons v rest => exact absurd rfl (filled v rest)

/-- A condition does not nest. -/
theorem checkCondition_ne_nesting {op : Operator} {arguments : List Json} {d limit : Nat} :
    checkCondition fields op arguments ≠ .error (.nestingTooDeep d limit) := by
  intro h
  cases mistake_of_check h with
  | value _ _ _ misfit => cases misfit.isShape

/-- A fault in nesting is found at a group that stands inside too many others, and counts them and
the group. -/
theorem Faulty.enclosed {depth d limit : Nat} {e : Json}
    (h : Faulty fields depth e (.nestingTooDeep d limit)) :
    ∃ n g, Enclosed n g e ∧ d = depth + n + 1 ∧ Limits.filterNesting ≤ depth + n := by
  generalize nesting : Fault.nestingTooDeep d limit = fault at h
  induction h with
  | tooDeep j children deep =>
    obtain ⟨rfl, -⟩ := Fault.nestingTooDeep.inj nesting
    exact ⟨0, _, .here j children, rfl, deep⟩
  | inside j hv _ ih =>
    obtain ⟨n, g, stands, named, deep⟩ := ih nesting
    exact ⟨n + 1, g, .inside j hv stands, by omega, by omega⟩
  | condition op found => exact absurd (nesting ▸ found) checkCondition_ne_nesting
  | _ => cases nesting

end

/-! ## Texts -/

theorem checkText_iff {fields : List Field} {text : String} {e : Json} :
    checkText fields text = .ok e ↔ text.utf8ByteSize ≤ Limits.textBytes ∧
      Json.read? text = some e ∧ check fields e = .ok () := by
  unfold checkText
  by_cases long : Limits.textBytes < text.utf8ByteSize
  · rw [if_pos long]
    exact ⟨nofun, fun h => absurd h.1 (Nat.not_le.2 long)⟩
  · rw [if_neg long]
    refine Iff.trans ?_ (and_iff_right (Nat.not_lt.1 long)).symm
    cases Json.read? text with
    | none => exact ⟨nofun, nofun⟩
    | some v =>
      dsimp only
      split
      · rename_i checked
        refine ⟨fun h => ?_, fun h => ?_⟩
        · obtain rfl := Except.ok.inj h
          exact ⟨rfl, checked⟩
        · obtain ⟨rfl, -⟩ : v = e ∧ _ := by simpa using h
          rfl
      · rename_i fault found
        refine ⟨nofun, fun h => ?_⟩
        obtain ⟨rfl, checked⟩ : v = e ∧ _ := by simpa using h
        rw [found] at checked
        cases checked

/-- The check accepts exactly the filters over the fields in which no group stands inside as many
others as are allowed to nest; the check of a text accepts the texts that are not too long and mean
such a filter, and gives it back. -/
theorem check_language (fields : List Field) :
    (∀ e, check fields e = .ok () ↔
      Filter fields e ∧ ∀ n g, Enclosed n g e → n < Limits.filterNesting) ∧
    ∀ text e, checkText fields text = .ok e ↔
      text.utf8ByteSize ≤ Limits.textBytes ∧ Json.read? text = some e ∧
        Filter fields e ∧ ∀ n g, Enclosed n g e → n < Limits.filterNesting := by
  have accepted (e : Json) : check fields e = .ok () ↔
      Filter fields e ∧ ∀ n g, Enclosed n g e → n < Limits.filterNesting := by
    simpa [check] using checkAt_iff fields e 0
  exact ⟨accepted, fun text e => by rw [checkText_iff, accepted]⟩

end Validation

end FieldFilter
