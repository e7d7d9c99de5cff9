import FieldFilter.Proofs.Json.RoundTrip
import FieldFilter.Proofs.Outline.Normal
import FieldFilter.Proofs.Validation.Language

/-!
# Excerpts of the input in faults

`Cites fields v fault cited` says which texts a fault found at `v` has to show: the head, the field
name, the field reference or the value that it is about, and the names of JSON types and formats.
The texts that it carries are excerpts of those, in the same order (`fault_excerpts`), so they stay
short however large the input is.
-/

namespace FieldFilter

/-- What a message shows of a text: all of it, if it is short enough, and otherwise its first
characters and three dots. -/
structure Excerpt (text excerpt : String) : Prop where
  whole : text.length ≤ Limits.shownLength → excerpt = text
  clipped : Limits.shownLength < text.length →
    excerpt.toList = text.toList.take Limits.shownLength ++ ['.', '.', '.']

theorem excerpt_shownText (text : String) : Excerpt text (shownText text) where
  whole := Text.clip_of_length_le
  clipped := by
    intro long
    unfold shownText Text.clip
    rw [if_neg (Nat.not_le.2 long)]
    simp

theorem excerpt_shown (v : Json) : Excerpt v.compact (shown v) := excerpt_shownText v.compact

theorem excerpt_self {text : String} (short : text.length ≤ Limits.shownLength) :
    Excerpt text text where
  whole := fun _ => rfl
  clipped := fun long => absurd short (Nat.not_le.2 long)

/-- A text has one excerpt. -/
theorem Excerpt.eq {text excerpt : String} (h : Excerpt text excerpt) :
    excerpt = shownText text := by
  by_cases short : text.length ≤ Limits.shownLength
  · rw [h.whole short, (excerpt_shownText text).whole short]
  · have long := Nat.not_le.1 short
    apply String.toList_inj.1
    rw [h.clipped long, (excerpt_shownText text).clipped long]

theorem Excerpt.length_le {text excerpt : String} (h : Excerpt text excerpt) :
    excerpt.length ≤ Limits.shownLength + 3 := by
  rw [h.eq]
  exact Text.length_clip_le Limits.shownLength text

theorem excerpt_typeName (v : Json) : Excerpt v.typeName v.typeName := by
  apply excerpt_self
  unfold Json.typeName
  split <;> decide

theorem excerpt_expectedType (t : DataType) :
    Excerpt (Validation.expectedType t) (Validation.expectedType t) := by
  apply excerpt_self
  cases t <;> decide

theorem excerpt_format {t : DataType} {format : String} (h : t.format? = some format) :
    Excerpt format format := by
  apply excerpt_self
  cases t <;> cases h <;> decide

/-- All texts that a fault carries. -/
def Fault.texts : Fault → List String
  | malformedText | textTooLong .. | emptyGroup _ | wrongArity .. | nestingTooDeep .. => []
  | notAnArray found | childNotArray _ _ found => [found]
  | unknownOperator head => [head]
  | badFieldReference _ found => [found]
  | unknownField field | unsupportedOperator _ field _ => [field]
  | wrongValueType field _ _ expected value => [field, expected, value]
  | wrongFormat field _ format value => [field, format, value]

namespace Validation

open Expression

/-- The check of a value for an operator and a type stops at `v`, where it asks for a JSON type: at
the value itself or, in a list, at the first element that does not fit. -/
inductive Stops (t : DataType) (op : Operator) : Json → Json → String → Prop
  | scalar {v : Json} : op.valueKind = .scalar → ¬ Fits t v → Stops t op v v (expectedType t)
  | list {v : Json} : op.valueKind = .list → v.isArray = false → Stops t op v v "array"
  | element {before rest : List Json} {v : Json} : op.valueKind = .list →
      (∀ u ∈ before, Fits t u) → ¬ Fits t v →
        Stops t op (.arr (before ++ v :: rest)) v (expectedType t)

/-- The texts that a fault found at an expression, less what is found inside it, has to show. -/
inductive Cites (fields : List Field) : Json → Fault → List String → Prop
  | notAnArray {v : Json} {found : String} : v.isArray = false →
      Cites fields v (.notAnArray found) [v.typeName]
  | token {token : String} {rest : List Json} {found : String} : (∀ j : Junction, token ≠ j.token) →
      (∀ op : Operator, token ≠ op.token) →
        Cites fields (.arr (.str token :: rest)) (.unknownOperator found) [token]
  | head {v : Json} {rest : List Json} {found : String} : (∀ s, v ≠ .str s) →
      Cites fields (.arr (v :: rest)) (.unknownOperator found) [v.compact]
  | child {j : Junction} {v : Json} {children : List Json} {index : Nat} {found : String} :
      v ∈ children → v.isArray = false →
        Cites fields (.arr (.str j.token :: children)) (.childNotArray j index found) [v.typeName]
  | reference {op : Operator} {v : Json} {values : List Json} {found : String} :
      (∀ key, v ≠ fieldReference key) →
        Cites fields (.arr (.str op.token :: v :: values)) (.badFieldReference op found) [v.compact]
  | field {op : Operator} {key : String} {values : List Json} {field : String} :
      (∀ f ∈ fields, f.key ≠ key) →
        Cites fields (.arr (.str op.token :: fieldReference key :: values)) (.unknownField field)
          [key]
  | operator {op : Operator} {key : String} {f : Field} {values : List Json} {field : String} :
      First fields key f → op.supports f.type = false →
        Cites fields (.arr (.str op.token :: fieldReference key :: values))
          (.unsupportedOperator op field f.type) [key]
  | type {op : Operator} {key : String} {f : Field} {value v : Json} {rest : List Json}
      {wanted field expected found : String} :
      First fields key f → Stops f.type op value v wanted →
        Cites fields (.arr (.str op.token :: fieldReference key :: value :: rest))
          (.wrongValueType field f.type op expected found) [key, wanted, v.compact]
  | format {op : Operator} {key : String} {f : Field} {value v : Json} {rest : List Json}
      {wanted format field expected found : String} :
      First fields key f → Stops f.type op value v wanted → f.type.format? = some format →
        Cites fields (.arr (.str op.token :: fieldReference key :: value :: rest))
          (.wrongFormat field f.type expected found) [key, format, v.compact]
  | nothing {e : Json} {fault : Fault} : fault.texts = [] → Cites fields e fault []

/-- A fault found at an expression carries excerpts of what it has to show. -/
def Shows (fields : List Field) (e : Json) (fault : Fault) : Prop :=
  ∃ cited, Cites fields e fault cited ∧ cited.Forall₂ Excerpt fault.texts

section
variable {fields : List Field} {op : Operator} {fault : Fault}

theorem Stops.excerpt {t : DataType} {value v : Json} {wanted : String}
    (h : Stops t op value v wanted) : Excerpt wanted wanted := by
  cases h with
  | scalar | element => exact excerpt_expectedType t
  | list => exact excerpt_self (by decide)

/-- The values at which a check stops are those that the fault shows. -/
theorem stops_of_checkValue {key : String} {t : DataType} {value : Json}
    (h : checkValue key t op value = .error fault) :
    ∃ v wanted, Stops t op value v wanted ∧
      (fault = .wrongValueType (shownText key) t op wanted (shown v) ∨
        ∃ format, t.format? = some format ∧
          fault = .wrongFormat (shownText key) t format (shown v)) := by
  unfold checkValue at h
  split at h
  · cases h
  · rename_i kind
    exact ⟨value, _, .scalar kind (not_fits_of_checkScalar h), checkScalar_error h⟩
  · rename_i kind
    split at h
    · obtain ⟨before, v, rest, rfl, fit, found⟩ := checkScalars_error h
      exact ⟨v, _, .element kind fit (not_fits_of_checkScalar found), checkScalar_error found⟩
    · rename_i other
      refine ⟨value, "array", .list kind ?_, .inl (Except.error.inj h).symm⟩
      cases value with
      | arr items => exact absurd rfl (other items)
      | _ => rfl

/-- The value of a condition is checked once its field and operator are in order. -/
theorem checkValue_of_checkCondition {key : String} {f : Field} {v : Json} {rest : List Json}
    (first : First fields key f) (supported : op.supports f.type = true)
    (semantic : fault.isShape = false)
    (h : checkCondition fields op (fieldReference key :: v :: rest) = .error fault) :
    checkValue key f.type op v = .error fault := by
  unfold checkCondition at h
  split at h
  · obtain rfl := Except.error.inj h
    cases semantic
  · simpa only [fieldName?_fieldReference, first_iff.2 first, supported, if_true] using h

theorem shows_of_checkCondition {arguments : List Json}
    (h : checkCondition fields op arguments = .error fault) :
    Shows fields (.arr (.str op.token :: arguments)) fault := by
  cases mistake_of_check h with
  | arity => exact ⟨[], .nothing rfl, .nil⟩
  | @reference v _ other =>
    exact ⟨[v.compact], .reference other, .cons (excerpt_shown v) .nil⟩
  | @field key _ missing => exact ⟨[key], .field missing, .cons (excerpt_shownText key) .nil⟩
  | @operator key _ _ first unsupported =>
    exact ⟨[key], .operator first unsupported, .cons (excerpt_shownText key) .nil⟩
  | @value key f value rest _ first supported _ misfit =>
    have found := checkValue_of_checkCondition first supported misfit.isShape h
    obtain ⟨v, wanted, stops, rfl | ⟨format, named, rfl⟩⟩ := stops_of_checkValue found
    · exact ⟨[key, wanted, v.compact], .type first stops, .cons (excerpt_shownText key)
        (.cons stops.excerpt (.cons (excerpt_shown v) .nil))⟩
    · exact ⟨[key, format, v.compact], .format first stops named, .cons (excerpt_shownText key)
        (.cons (excerpt_format named) (.cons (excerpt_shown v) .nil))⟩

/-- At whatever depth a fault is found, it is found at an expression that stands there. -/
theorem Faulty.shows {depth : Nat} {e : Json} (h : Faulty fields depth e fault) :
    ∃ v, Occurs v e ∧ Shows fields v fault := by
  induction h with
  | @notAnArray _ v other =>
    exact ⟨v, .here, [v.typeName], .notAnArray other, .cons (excerpt_typeName v) .nil⟩
  | @head _ v _ other => exact ⟨_, .here, [v.compact], .head other, .cons (excerpt_shown v) .nil⟩
  | @token _ token _ group condition =>
    exact ⟨_, .here, [token], .token group condition, .cons (excerpt_shownText token) .nil⟩
  | tooDeep | emptyGroup => exact ⟨_, .here, [], .nothing rfl, .nil⟩
  | @child _ _ v _ _ hv other =>
    exact ⟨_, .here, [v.typeName], .child hv other, .cons (excerpt_typeName v) .nil⟩
  | inside j hv _ ih =>
    obtain ⟨w, stands, shows⟩ := ih
    exact ⟨w, .inside j hv stands, shows⟩
  | condition op found => exact ⟨_, .here, shows_of_checkCondition found⟩

theorem length_le_of_excerpts {cited texts : List String} (h : cited.Forall₂ Excerpt texts) :
    ∀ text ∈ texts, text.length ≤ Limits.shownLength + 3 := by
  induction h with
  | nil => exact nofun
  | cons own _ ih => exact List.forall_mem_cons.2 ⟨own.length_le, ih⟩

end

/-- Whatever the fields and the expression, a fault that is found is found at an expression that
stands somewhere in it, and the texts that it carries are excerpts of those that it has to show
there: the head, the field name, the field reference or the value that it is about, and names of
types and formats. So none of them is longer than an excerpt can be. -/
theorem fault_excerpts {fields : List Field} {e : Json} {fault : Fault}
    (failed : check fields e = .error fault) :
    (∃ v, Occurs v e ∧ Shows fields v fault) ∧
      ∀ text ∈ fault.texts, text.length ≤ Limits.shownLength + 3 := by
  obtain ⟨v, stands, cited, cites, excerpts⟩ := (faulty_of_checkAt e 0 failed).shows
  exact ⟨⟨v, stands, cited, cites, excerpts⟩, length_le_of_excerpts excerpts⟩

/-- A text with more characters than are shown, each of two bytes. -/
def accents : String := String.ofList (List.replicate 130 'é')

theorem toList_accents : accents.toList = List.replicate 130 'é' := String.toList_ofList

theorem compact_accents : (Json.str accents).compact.toList =
    '"' :: (List.replicate 130 'é' ++ ['"']) := by
  have plain : ∀ c ∈ accents.toList, Glyph.ofChar c = .plain c := by
    intro c hc
    rw [toList_accents] at hc
    obtain rfl := List.eq_of_mem_replicate hc
    rfl
  have written : (Json.str accents).compact = "" ++ "\"" ++ accents ++ "\"" :=
    Raw.writeString_plain plain ""
  rw [written]
  simp [toList_accents]

def counted : List Field := [⟨"count", .integer, none, none⟩]

/-- A list of numbers that goes on with a text, two groups deep. -/
def miscounted : Json :=
  .arr [.str "any", .arr [], .arr [.str "all",
    .arr [.str "in", .arr [.str "get", .str "count"], .arr [.int 1, .str accents]]]]

def miscount : Fault := .wrongValueType "count" .integer .isIn "number" (shown (.str accents))

/-- Of the text, the quotation mark and as many characters as there is room for are shown. -/
theorem fault_excerpts_miscounted :
    check counted miscounted = .error miscount ∧
      (∃ v, Occurs v miscounted ∧ Shows counted v miscount) ∧
      (∀ text ∈ miscount.texts, text.length ≤ 123) ∧
      (shown (.str accents)).toList = '"' :: (List.replicate 119 'é' ++ ['.', '.', '.']) := by
  have failed : check counted miscounted = .error miscount := rfl
  obtain ⟨found, bounded⟩ := fault_excerpts failed
  refine ⟨failed, found, bounded, ?_⟩
  have long : Limits.shownLength < (Json.str accents).compact.length := by
    rw [← String.length_toList, compact_accents]
    simp [Limits.shownLength]
  rw [(excerpt_shown (.str accents)).clipped long, compact_accents]
  rfl

end Validation

end FieldFilter
