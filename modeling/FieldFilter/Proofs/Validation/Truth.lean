import FieldFilter.Proofs.Validation.Normal

/-!
# What filters say

Given truth values for conditions, an expression has a truth value (`holds`): a group of all holds
if every child does, a group of any if some child does, and the empty expression always. Reading an
expression and writing it again leaves out what is no filter, which are the empty expression,
conditions on the field without a name, and groups of nothing else. The truth value of what is left
is `weigh` (`holds_normal`). An empty child counts in a group of any, so the two may differ
(`canonical_changes_truth`). They do not where no condition is on the field without a name and no
group of any mixes such children with others (`canonical_truth`).
-/

namespace FieldFilter

/-- Whether a group holds whose children have the given truth values. -/
def Junction.joins : Junction → List Bool → Bool
  | all, values => values.all id
  | any, values => values.any id

namespace Expression

/-- Truth values for conditions on a field, with the value that is compared, if any. -/
abbrev Assignment := Operator → String → Option Json → Bool

variable (σ : Assignment)

/-- The truth value of a condition, if it is on a field. -/
def stands? (op : Operator) : List Json → Option Bool
  | [] => none
  | reference :: values => (fieldName? reference).map fun name => σ op name values.head?

mutual

/-- The truth value of an expression. What is neither group nor condition is no filter and holds. -/
def holds : Json → Bool
  | .arr (.str token :: arguments) =>
    match headOfToken token with
    | .group j => j.joins (holdsEach arguments)
    | .condition op => (stands? σ op arguments).getD true
    | _ => true
  | _ => true

def holdsEach : List Json → List Bool
  | [] => []
  | v :: rest => holds v :: holdsEach rest

end

/-- The filter that keeps everything has no expression, and always holds. -/
def holds? (e : Option Json) : Bool := (e.map (holds σ)).getD true

/-- The truth value of a condition on a field that has a name. -/
def counts? (op : Operator) : List Json → Option Bool
  | [] => none
  | reference :: values =>
    (fieldName? reference).bind fun name =>
      if name = "" then none else some (σ op name values.head?)

/-- The truth value of a group whose children have the given truth values, if it has children. -/
def joins? (j : Junction) (values : List Bool) : Option Bool :=
  if values.isEmpty then none else some (j.joins values)

mutual

/-- The truth value of an expression when what is no filter does not count, if anything counts. -/
def weigh : Json → Option Bool
  | .arr (.str token :: arguments) =>
    match headOfToken token with
    | .group j => joins? j (weighEach arguments)
    | .condition op => counts? σ op arguments
    | _ => none
  | _ => none

def weighEach : List Json → List Bool
  | [] => []
  | v :: rest => (weigh v).toList ++ weighEach rest

end

theorem holdsEach_eq (vs : List Json) : holdsEach σ vs = vs.map (holds σ) := by
  induction vs with
  | nil => rfl
  | cons v rest ih => rw [holdsEach, ih, List.map_cons]

theorem weighEach_eq (vs : List Json) : weighEach σ vs = vs.filterMap (weigh σ) := by
  induction vs with
  | nil => rfl
  | cons v rest ih =>
    rw [weighEach, ih, List.filterMap_cons]
    cases weigh σ v <;> rfl

variable {σ} {j : Junction} {op : Operator} {token : String} {arguments : List Json}

theorem holds_group : holds σ (.arr (.str j.token :: arguments)) =
    j.joins (arguments.map (holds σ)) := by
  rw [holds, headOfToken_group_iff.2 rfl, holdsEach_eq]

theorem weigh_group (known : headOfToken token = .group j) :
    weigh σ (.arr (.str token :: arguments)) = joins? j (weighEach σ arguments) := by
  rw [weigh, known]

theorem weigh_condition (known : headOfToken token = .condition op) :
    weigh σ (.arr (.str token :: arguments)) = counts? σ op arguments := by
  rw [weigh, known]

theorem weigh_other {e : Json} (hg : ∀ j, head e ≠ .group j) (hc : ∀ op, head e ≠ .condition op) :
    weigh σ e = none := by
  unfold weigh
  split
  · split
    · rename_i j known
      exact absurd known (hg j)
    · rename_i op known
      exact absurd known (hc op)
    · rfl
  · rfl

/-! ## Children that count -/

theorem joins_all_iff {values : List Bool} :
    Junction.all.joins values = true ↔ ∀ b ∈ values, b = true := by
  simp [Junction.joins]

theorem joins_any_iff {values : List Bool} :
    Junction.any.joins values = true ↔ ∃ b ∈ values, b = true := by
  simp [Junction.joins]

theorem joins?_eq_none_iff {values : List Bool} : joins? j values = none ↔ values = [] := by
  cases values <;> simp [joins?]

theorem joins?_getD_all (values : List Bool) :
    (joins? .all values).getD true = Junction.all.joins values := by
  cases values <;> rfl

theorem joins?_getD {values : List Bool} (some : values ≠ []) :
    (joins? j values).getD true = j.joins values := by
  cases values with
  | nil => exact absurd rfl some
  | cons b rest => rfl

section
variable {children : List Json}

/-- If a group holds as far as its children count, then it holds. -/
theorem joins_of_joins? (some : children ≠ [])
    (each : ∀ v ∈ children, (weigh σ v).getD true = true → holds σ v = true)
    (h : (joins? j (children.filterMap (weigh σ))).getD true = true) :
    j.joins (children.map (holds σ)) = true := by
  cases j with
  | all =>
    rw [joins?_getD_all, joins_all_iff] at h
    rw [joins_all_iff, List.forall_mem_map]
    intro v hv
    apply each v hv
    cases counted : weigh σ v with
    | none => rfl
    | some b => exact h b (List.mem_filterMap.2 ⟨v, hv, counted⟩)
  | any =>
    rw [joins_any_iff]
    by_cases nothing : children.filterMap (weigh σ) = []
    · obtain ⟨v, hv⟩ := List.exists_mem_of_ne_nil children some
      have uncounted := List.filterMap_eq_nil_iff.1 nothing v hv
      exact ⟨_, List.mem_map_of_mem hv, each v hv (by rw [uncounted]; rfl)⟩
    · rw [joins?_getD nothing, joins_any_iff] at h
      obtain ⟨b, hb, rfl⟩ := h
      obtain ⟨v, hv, counted⟩ := List.mem_filterMap.1 hb
      exact ⟨_, List.mem_map_of_mem hv, each v hv (by rw [counted]; rfl)⟩

theorem joins?_all (each : ∀ v ∈ children, (weigh σ v).getD true = holds σ v) :
    (joins? .all (children.filterMap (weigh σ))).getD true =
      Junction.all.joins (children.map (holds σ)) := by
  rw [joins?_getD_all, Bool.eq_iff_iff, joins_all_iff, joins_all_iff, List.forall_mem_map]
  constructor
  · intro all v hv
    rw [← each v hv]
    cases counted : weigh σ v with
    | none => rfl
    | some b => exact all b (List.mem_filterMap.2 ⟨v, hv, counted⟩)
  · intro all b hb
    obtain ⟨v, hv, counted⟩ := List.mem_filterMap.1 hb
    have own := each v hv
    rw [counted, all v hv] at own
    exact own

/-- In a group of any, the children that do not count must be all or none. -/
theorem joins?_any (some : children ≠ [])
    (each : ∀ v ∈ children, (weigh σ v).getD true = holds σ v)
    (unmixed : (∀ v ∈ children, weigh σ v = none) ∨ ∀ v ∈ children, weigh σ v ≠ none) :
    (joins? .any (children.filterMap (weigh σ))).getD true =
      Junction.any.joins (children.map (holds σ)) := by
  obtain none | all := unmixed
  · obtain ⟨v, hv⟩ := List.exists_mem_of_ne_nil children some
    have own := each v hv
    rw [none v hv] at own
    rw [joins?_eq_none_iff.2 (List.filterMap_eq_nil_iff.2 none)]
    exact (joins_any_iff.2 ⟨_, List.mem_map_of_mem hv, own.symm⟩).symm
  · have counted : children.filterMap (weigh σ) = children.map (holds σ) := by
      rw [← List.filterMap_eq_map]
      refine List.filterMap_congr fun v hv => ?_
      obtain ⟨b, own⟩ := Option.ne_none_iff_exists'.1 (all v hv)
      have same := each v hv
      rw [own] at same
      rw [own, Function.comp_apply, ← same]
      rfl
    rw [counted, joins?_getD (by simpa using some)]

end

/-! ## Reading and writing -/

theorem holds_condition {name : String} {values : List Json} :
    holds σ (.arr (.str op.token :: fieldReference name :: values)) = σ op name values.head? := by
  rw [holds, headOfToken_condition_iff.2 rfl]
  simp only [stands?, fieldName?_fieldReference, Option.map_some, Option.getD_some]

end Expression

open Expression

namespace Validation

theorem Fits.ne_null {t : DataType} {v : Json} (h : Fits t v) : v ≠ .null := by
  rintro rfl
  cases h with
  | integer number => cases number
  | real number => cases number

/-- An operator that takes a value takes one other than null. -/
theorem Takes.value {t : DataType} {op : Operator} {values : List Json}
    (h : Takes t op.valueKind values) :
    op.isUnary = true ∨ op.isUnary = false ∧ ∃ v, values.head? = some v ∧ v ≠ .null := by
  unfold Operator.isUnary
  generalize op.valueKind = kind at h ⊢
  cases h with
  | none => exact .inl rfl
  | scalar fits => exact .inr ⟨rfl, _, rfl, fits.ne_null⟩
  | list => exact .inr ⟨rfl, _, rfl, nofun⟩

end Validation

namespace Reading

open Validation

variable (σ : Assignment) {fields : List Field}

theorem holds_joined (j : Junction) (children : List Json) :
    (Group.joined? j children).map (holds σ) = joins? j (children.map (holds σ)) := by
  cases children with
  | nil => rfl
  | cons v rest => exact congrArg some holds_group

theorem counts?_of_unread {op : Operator} {arguments : List Json} {n : NodeId}
    (unread : condition? op arguments n = none) : counts? σ op arguments = none := by
  cases arguments with
  | nil => rfl
  | cons reference values =>
    rw [counts?, Option.map_eq_none_iff.1 unread]
    rfl

/-- An accepted condition is written if its field has a name, and says what it said. -/
theorem condition_weighed {op : Operator} {arguments : List Json} {n : NodeId} {c : Condition}
    (accepted : checkCondition fields op arguments = .ok ())
    (read : condition? op arguments n = some c) :
    c.expression?.map (holds σ) = counts? σ op arguments := by
  obtain ⟨key, f, values, rfl, -, -, takes⟩ := checkCondition_iff.1 accepted
  have same : c = ⟨n, key, op, if op.isUnary then none else values.head?⟩ := by
    rw [condition?, fieldName?_fieldReference, Option.map_some, Option.some.injEq] at read
    exact read.symm
  simp only [counts?, fieldName?_fieldReference, Option.bind_some]
  by_cases named : key = ""
  · rw [if_pos named, same, Condition.expression?, if_pos (by simp [named])]
    rfl
  · have complete : c.Complete := by
      rw [same]
      refine ⟨named, takes.value.imp_right ?_⟩
      rintro ⟨binary, v, some, other⟩
      exact ⟨v, by simpa [binary] using some, other⟩
    obtain ⟨v, written⟩ := Condition.exists_of_complete complete
    rw [if_neg named, written, expression?_of_accepted accepted read written, Option.map_some,
      holds_condition]

/-- What is written of accepted elements says what those of them say that count. -/
theorem Reads.weighed {vs : List Json} {is : List Item} {n m : NodeId} (h : Reads n vs is m) :
    ∀ depth, (∀ v ∈ vs, checkAt fields depth v = .ok ()) →
      (written is).map (holds σ) = weighEach σ vs := by
  induction h with
  | nil => exact fun _ _ => rfl
  | other hg hc _ ih =>
    intro depth all
    rw [weighEach, weigh_other hg hc, ih depth (List.forall_mem_cons.1 all).2]
    rfl
  | nameless known unread _ ih =>
    intro depth all
    rw [weighEach, weigh_condition known, counts?_of_unread σ unread,
      ih depth (List.forall_mem_cons.1 all).2]
    rfl
  | condition known read _ ih =>
    intro depth all
    obtain ⟨first, others⟩ := List.forall_mem_cons.1 all
    rw [headOfToken_condition_iff.1 known] at first
    have own := condition_weighed σ (checkAt_condition_iff.1 first) read
    rw [weighEach, weigh_condition known, ← own, ← ih depth others, written_cons, List.map_append,
      Item.expression?, Option.toList_map]
  | @group _ j _ _ _ _ _ _ _ known inner _ ih ih' =>
    intro depth all
    obtain ⟨first, others⟩ := List.forall_mem_cons.1 all
    rw [headOfToken_group_iff.1 known] at first
    obtain ⟨-, -, each⟩ := checkAt_group_iff.1 first
    have below := ih (depth + 1) fun v hv => (each v hv).2
    rw [weighEach, weigh_group known, ← below, ← ih' depth others, written_cons, List.map_append,
      Item.expression?, inner.expression?_group j, ← holds_joined, Option.toList_map]

/-- Read and written again, an accepted expression says what is left of it when what is no filter
does not count. -/
theorem holds_normal {e : Json} (accepted : check fields e = .ok ()) (n : NodeId) :
    (ofExpression e n).root.expression?.map (holds σ) = weigh σ e := by
  obtain ⟨is, read, root⟩ := expression?_root e n
  have weighed := read.weighed σ 1 (checkAt_parts accepted)
  rw [root, holds_joined, weighed]
  obtain ⟨j, token, arguments, rfl, known, parts⟩ | ⟨op, known, parts⟩ | ⟨hg, hc, parts⟩ :=
    parts_cases e
  · rw [parts, weigh_group known]
  · rw [parts, weighEach, weighEach]
    cases weigh σ e with
    | none => rfl
    | some b => cases b <;> rfl
  · rw [parts, weigh_other hg hc]
    rfl

end Reading

namespace Expression

open Validation

/-- Nothing but empty expressions is in the expression. -/
inductive Vacuous : Json → Prop
  | empty : Vacuous (.arr [])
  | group (j : Junction) {children : List Json} : (∀ v ∈ children, Vacuous v) →
      Vacuous (.arr (.str j.token :: children))

/-- No condition in the expression is on the field without a name. -/
def Named (e : Json) : Prop :=
  ∀ (op : Operator) (values : List Json),
    ¬ Occurs (.arr (.str op.token :: .arr [.str "get", .str ""] :: values)) e

/-- In no group of any a vacuous child stands beside one that is not. -/
def Unmixed (e : Json) : Prop :=
  ∀ children, Occurs (.arr (.str Junction.any.token :: children)) e →
    (∀ v ∈ children, Vacuous v) ∨ ∀ v ∈ children, ¬ Vacuous v

section
variable {σ : Assignment} {fields : List Field} {j : Junction} {children : List Json} {e v : Json}

theorem Named.child (h : Named (.arr (.str j.token :: children))) (hv : v ∈ children) : Named v :=
  fun op values occurs => h op values (.inside j hv occurs)

theorem Unmixed.child (h : Unmixed (.arr (.str j.token :: children))) (hv : v ∈ children) :
    Unmixed v :=
  fun others occurs => h others (.inside j hv occurs)

theorem vacuous_group_iff :
    Vacuous (.arr (.str j.token :: children)) ↔ ∀ v ∈ children, Vacuous v := by
  refine ⟨fun h => ?_, .group j⟩
  generalize he : Json.arr (.str j.token :: children) = e at h
  cases h with
  | empty => cases he
  | group k all =>
    obtain ⟨-, rfl⟩ : _ ∧ children = _ := by simpa using he
    exact all

theorem not_vacuous_condition {op : Operator} {arguments : List Json} :
    ¬ Vacuous (.arr (.str op.token :: arguments)) := by
  intro h
  generalize he : Json.arr (.str op.token :: arguments) = e at h
  cases h with
  | empty => cases he
  | group j =>
    obtain ⟨same, -⟩ : op.token = j.token ∧ _ := by simpa using he
    exact token_ne j op same.symm

theorem weigh_join : weigh σ (.arr (.str j.token :: children)) =
    joins? j (children.filterMap (weigh σ)) := by
  rw [weigh_group (headOfToken_group_iff.2 rfl), weighEach_eq]

/-- A condition on a field with a name counts. -/
theorem Named.counted {op : Operator} {key : String} {values : List Json}
    (h : Named (.arr (.str op.token :: .arr [.str "get", .str key] :: values))) :
    weigh σ (.arr (.str op.token :: .arr [.str "get", .str key] :: values)) =
      some (holds σ (.arr (.str op.token :: .arr [.str "get", .str key] :: values))) := by
  have named : key ≠ "" := by
    rintro rfl
    exact h op values .here
  change weigh σ (.arr (.str op.token :: fieldReference key :: values)) =
    some (holds σ (.arr (.str op.token :: fieldReference key :: values)))
  rw [weigh_condition (headOfToken_condition_iff.2 rfl), holds_condition]
  simp only [counts?, fieldName?_fieldReference, Option.bind_some, if_neg named]

/-- Of the filters without nameless conditions, just the vacuous ones do not count. -/
theorem weigh_eq_none_iff (filter : Filter fields e) :
    Named e → (weigh σ e = none ↔ Vacuous e) := by
  induction filter with
  | empty => exact fun _ => iff_of_true rfl .empty
  | group j _ _ ih =>
    intro named
    rw [weigh_join, joins?_eq_none_iff, List.filterMap_eq_nil_iff, vacuous_group_iff]
    exact forall₂_congr fun v hv => ih v hv (named.child hv)
  | condition op =>
    intro named
    refine iff_of_false (fun uncounted => ?_) not_vacuous_condition
    cases named.counted.symm.trans uncounted

/-- If a filter holds as far as it counts, then it holds. -/
theorem holds_of_weigh (filter : Filter fields e) :
    Named e → (weigh σ e).getD true = true → holds σ e = true := by
  induction filter with
  | empty => exact fun _ _ => rfl
  | @group j children some _ ih =>
    intro named weighed
    have each : ∀ v ∈ children, (weigh σ v).getD true = true → holds σ v = true :=
      fun v hv => ih v hv (named.child hv)
    rw [weigh_join] at weighed
    rw [holds_group]
    exact joins_of_joins? some each weighed
  | condition op =>
    intro named weighed
    rw [named.counted] at weighed
    exact weighed

/-- Where nothing vacuous stands beside what is not in a group of any, a filter holds exactly if it
does as far as it counts. -/
theorem weigh_eq_holds (filter : Filter fields e) :
    Named e → Unmixed e → (weigh σ e).getD true = holds σ e := by
  induction filter with
  | empty => exact fun _ _ => rfl
  | @group j children some filters ih =>
    intro named unmixed
    have each : ∀ v ∈ children, (weigh σ v).getD true = holds σ v :=
      fun v hv => ih v hv (named.child hv) (unmixed.child hv)
    rw [weigh_join, holds_group]
    cases j with
    | all => exact joins?_all each
    | any =>
      refine joins?_any some each ((unmixed children .here).imp ?_ ?_)
      · exact fun all v hv => (weigh_eq_none_iff (filters v hv) (named.child hv)).2 (all v hv)
      · exact fun all v hv none =>
          all v hv ((weigh_eq_none_iff (filters v hv) (named.child hv)).1 none)
  | condition op =>
    intro named _
    rw [named.counted]
    rfl

end

/-- Read and written again, an accepted expression has the truth value of what is left of it when
what is no filter does not count. So without conditions on the field without a name, it holds
wherever its canonical form does; and if besides no group of any mixes vacuous children with others,
the two have the same truth value, whatever the conditions have. -/
theorem canonical_truth {fields : List Field} {e : Json} (accepted : check fields e = .ok ())
    (n : NodeId) (σ : Assignment) :
    (Reading.ofExpression e n).root.expression?.map (holds σ) = weigh σ e ∧
      (Named e → holds? σ (Reading.ofExpression e n).root.expression? = true →
        holds σ e = true) ∧
      (Named e → Unmixed e →
        holds? σ (Reading.ofExpression e n).root.expression? = holds σ e) := by
  have normal := Reading.holds_normal σ accepted n
  have filter := ((checkAt_iff fields e 0).1 accepted).1
  rw [holds?, normal]
  exact ⟨rfl, holds_of_weigh filter, weigh_eq_holds filter⟩

/-- That a field is there. -/
def present (field : String) : Json := .arr [.str "has", .arr [.str "get", .str field]]

/-- A group with an empty child beside a condition. -/
def padded (j : Junction) : Json := .arr [.str j.token, .arr [], present "a"]

theorem occurs_padded {c : Json} {j : Junction} (h : Occurs c (padded j)) :
    c = padded j ∨ c = .arr [] ∨ c = present "a" := by
  generalize he : padded j = e at h
  cases h with
  | here => exact .inl rfl
  | @inside k v children hv below =>
    obtain ⟨-, rfl⟩ : _ ∧ [.arr [], present "a"] = children := by simpa [padded] using he
    obtain rfl | rfl : v = .arr [] ∨ v = present "a" := by simpa using hv
    · cases below
      exact .inr (.inl rfl)
    · exact .inr (.inr (below.eq_of_head nofun))

/-- In a group of all an empty child makes no difference. -/
theorem canonical_truth_padded :
    check [⟨"a", .string, none, none⟩] (padded .all) = .ok () ∧ Named (padded .all) ∧
    Unmixed (padded .all) ∧
    (Reading.ofExpression (padded .all) 1).root.expression? =
      some (.arr [.str "all", present "a"]) ∧
    holds? (fun _ _ _ => false) (Reading.ofExpression (padded .all) 1).root.expression? =
      holds (fun _ _ _ => false) (padded .all) := by
  have accepted : check [⟨"a", .string, none, none⟩] (padded .all) = .ok () := rfl
  have named : Named (padded .all) := by
    intro op values occurs
    obtain same | same | same := occurs_padded occurs <;> simp [padded, present] at same
  have unmixed : Unmixed (padded .all) := by
    intro children occurs
    obtain same | same | same := occurs_padded occurs <;>
      simp [padded, present, Junction.token] at same
  obtain ⟨-, -, same⟩ := canonical_truth accepted 1 fun _ _ _ => false
  exact ⟨accepted, named, unmixed, rfl, same named unmixed⟩

/-- An empty child makes a group of any hold, which may then hold where its canonical form does not.
A condition on the field without a name may fail, but nothing is written of it. -/
theorem canonical_changes_truth :
    (check [⟨"a", .string, none, none⟩] (padded .any) = .ok () ∧
      holds (fun _ _ _ => false) (padded .any) = true ∧
      holds? (fun _ _ _ => false) (Reading.ofExpression (padded .any) 1).root.expression? =
        false) ∧
    check [⟨"", .string, none, none⟩] (present "") = .ok () ∧
      holds (fun _ _ _ => false) (present "") = false ∧
      holds? (fun _ _ _ => false) (Reading.ofExpression (present "") 1).root.expression? = true :=
  ⟨⟨rfl, rfl, rfl⟩, rfl, rfl, rfl⟩

end Expression

end FieldFilter
