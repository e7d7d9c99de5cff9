import FieldFilter.Validation.Value

/-!
# The values of data types

`Fits t v` says that `v` is a value of the data type `t`, with the texts of dates and times spelled
out, and `Takes t kind vs` that the elements `vs` after a field are what an operator of the given
kind takes. The check of a value accepts just these (`checkValue_iff`); what it finds at fault in the
others is `Misfit`. The default value of a type is one of its values (`fits_defaultValue`).
-/

namespace FieldFilter.Validation

/-- A row of `n` of the digits from `0` to `9`. -/
structure DigitRow (n : Nat) (row : List Char) : Prop where
  length : row.length = n
  digits : ∀ c ∈ row, '0' ≤ c ∧ c ≤ '9'

/-- A year of four digits, a month and a day of two. -/
inductive DateRow : List Char → Prop
  | mk {year month day : List Char} : DigitRow 4 year → DigitRow 2 month → DigitRow 2 day →
      DateRow (year ++ '-' :: (month ++ '-' :: day))

/-- Hours, minutes and seconds of two digits. -/
inductive TimeRow : List Char → Prop
  | mk {hours minutes seconds : List Char} : DigitRow 2 hours → DigitRow 2 minutes →
      DigitRow 2 seconds → TimeRow (hours ++ ':' :: (minutes ++ ':' :: seconds))

/-- The value is one of the data type. -/
inductive Fits : DataType → Json → Prop
  | string (s : String) : Fits .string (.str s)
  | bigInteger (s : String) : Fits .bigInteger (.str s)
  | integer {v : Json} : v.isNumber = true → Fits .integer v
  | real {v : Json} : v.isNumber = true → Fits .real v
  | date {s : String} : DateRow s.toList → Fits .date (.str s)
  | time {s : String} : TimeRow s.toList → Fits .time (.str s)
  | dateTime {s : String} {date time : List Char} : DateRow date → TimeRow time →
      s.toList = date ++ 'T' :: time → Fits .dateTime (.str s)

/-- The elements are what an operator of a kind takes besides a field of the data type. -/
inductive Takes (t : DataType) : ValueKind → List Json → Prop
  | none : Takes t .none []
  | scalar {v : Json} : Fits t v → Takes t .scalar [v]
  | list {items : List Json} : (∀ v ∈ items, Fits t v) → Takes t .list [.arr items]

/-! ## Formats -/

theorem isDigit_iff (c : Char) : c.isDigit = true ↔ '0' ≤ c ∧ c ≤ '9' := by
  simp [Char.isDigit, Char.le_def]

theorem fitsFormat_nil {text : List Char} : fitsFormat [] text = true ↔ text = [] := by
  cases text <;> simp [fitsFormat]

/-- A character that stands for itself. -/
theorem fitsFormat_literal {f : Char} (h : ['Y', 'M', 'D', 'H', 'S'].contains f = false)
    {format text : List Char} : fitsFormat (f :: format) text = true ↔
      ∃ rest, text = f :: rest ∧ fitsFormat format rest = true := by
  cases text with
  | nil => simp [fitsFormat]
  | cons c rest =>
    rw [fitsFormat, if_neg (by rw [h]; exact Bool.false_ne_true)]
    simp only [Bool.and_eq_true, beq_iff_eq, List.cons.injEq]
    constructor
    · rintro ⟨rfl, fits⟩
      exact ⟨rest, ⟨rfl, rfl⟩, fits⟩
    · rintro ⟨_, ⟨rfl, rfl⟩, fits⟩
      exact ⟨rfl, fits⟩

/-- A letter that stands for digits, repeated. -/
theorem fitsFormat_digits {f : Char} (h : ['Y', 'M', 'D', 'H', 'S'].contains f = true) (n : Nat)
    {format text : List Char} : fitsFormat (List.replicate n f ++ format) text = true ↔
      ∃ row rest, DigitRow n row ∧ text = row ++ rest ∧ fitsFormat format rest = true := by
  induction n generalizing text with
  | zero =>
    constructor
    · intro fits
      exact ⟨[], text, ⟨rfl, by simp⟩, rfl, fits⟩
    · rintro ⟨row, rest, digits, rfl, fits⟩
      obtain rfl := List.eq_nil_of_length_eq_zero digits.length
      exact fits
  | succ n ih =>
    rw [List.replicate_succ, List.cons_append]
    cases text with
    | nil =>
      constructor
      · intro fits
        cases fits
      · rintro ⟨row, rest, digits, he, -⟩
        obtain ⟨rfl, -⟩ := List.append_eq_nil_iff.1 he.symm
        cases digits.length
    | cons c text =>
      rw [fitsFormat, if_pos h, Bool.and_eq_true, ih]
      constructor
      · rintro ⟨digit, row, rest, digits, rfl, fits⟩
        refine ⟨c :: row, rest, ⟨by simp [digits.length], ?_⟩, rfl, fits⟩
        exact List.forall_mem_cons.2 ⟨(isDigit_iff c).1 digit, digits.digits⟩
      · rintro ⟨row, rest, digits, he, fits⟩
        rcases row with - | ⟨d, row⟩
        · cases digits.length
        · obtain ⟨rfl, rfl⟩ := List.cons.inj he
          obtain ⟨digit, others⟩ := List.forall_mem_cons.1 digits.digits
          exact ⟨(isDigit_iff c).2 digit, row, rest,
            ⟨by simpa using digits.length, others⟩, rfl, fits⟩

/-- The format of a date, with more after it. -/
theorem fitsFormat_date {format text : List Char} :
    fitsFormat ("YYYY-MM-DD".toList ++ format) text = true ↔
      ∃ date rest, DateRow date ∧ text = date ++ rest ∧ fitsFormat format rest = true := by
  have shape : "YYYY-MM-DD".toList ++ format = List.replicate 4 'Y' ++
      '-' :: (List.replicate 2 'M' ++ '-' :: (List.replicate 2 'D' ++ format)) := rfl
  rw [shape, fitsFormat_digits rfl]
  constructor
  · rintro ⟨year, _, hy, rfl, dash⟩
    obtain ⟨_, rfl, months⟩ := (fitsFormat_literal rfl).1 dash
    obtain ⟨month, _, hm, rfl, dash'⟩ := (fitsFormat_digits rfl 2).1 months
    obtain ⟨_, rfl, days⟩ := (fitsFormat_literal rfl).1 dash'
    obtain ⟨day, rest, hd, rfl, fits⟩ := (fitsFormat_digits rfl 2).1 days
    exact ⟨_, rest, .mk hy hm hd, by simp, fits⟩
  · rintro ⟨_, rest, @⟨year, month, day, hy, hm, hd⟩, rfl, fits⟩
    refine ⟨year, '-' :: (month ++ '-' :: (day ++ rest)), hy, by simp, ?_⟩
    refine (fitsFormat_literal rfl).2 ⟨_, rfl, (fitsFormat_digits rfl 2).2 ⟨month, _, hm, rfl, ?_⟩⟩
    exact (fitsFormat_literal rfl).2 ⟨_, rfl, (fitsFormat_digits rfl 2).2 ⟨day, _, hd, rfl, fits⟩⟩

theorem fitsFormat_time {text : List Char} :
    fitsFormat "HH:MM:SS".toList text = true ↔ TimeRow text := by
  have shape : "HH:MM:SS".toList = List.replicate 2 'H' ++
      ':' :: (List.replicate 2 'M' ++ ':' :: (List.replicate 2 'S' ++ [])) := rfl
  rw [shape, fitsFormat_digits rfl]
  constructor
  · rintro ⟨hours, _, hh, rfl, colon⟩
    obtain ⟨_, rfl, after⟩ := (fitsFormat_literal rfl).1 colon
    obtain ⟨minutes, _, hm, rfl, colon'⟩ := (fitsFormat_digits rfl 2).1 after
    obtain ⟨_, rfl, last⟩ := (fitsFormat_literal rfl).1 colon'
    obtain ⟨seconds, rest, hs, rfl, done⟩ := (fitsFormat_digits rfl 2).1 last
    obtain rfl := fitsFormat_nil.1 done
    rw [List.append_nil]
    exact .mk hh hm hs
  · rintro @⟨hours, minutes, seconds, hh, hm, hs⟩
    refine ⟨hours, _, hh, rfl, (fitsFormat_literal rfl).2 ⟨_, rfl, ?_⟩⟩
    refine (fitsFormat_digits rfl 2).2 ⟨minutes, _, hm, rfl, ?_⟩
    refine (fitsFormat_literal rfl).2 ⟨_, rfl, ?_⟩
    exact (fitsFormat_digits rfl 2).2 ⟨seconds, [], hs, by simp, rfl⟩

/-! ## Values -/

/-- A text is a value of a type that is no number's if it has the type's format, if there is one. -/
theorem fits_str_iff {t : DataType} (h : t.isNumeric = false) (s : String) :
    Fits t (.str s) ↔ ∀ format, t.format? = some format →
      fitsFormat format.toList s.toList = true := by
  have whole (format : List Char) : format = format ++ [] := (List.append_nil format).symm
  constructor
  · rintro (_ | _ | ⟨number⟩ | ⟨number⟩ | ⟨hd⟩ | ⟨ht⟩ | ⟨hd, ht, he⟩) format named
    · cases named
    · cases named
    · cases h
    · cases h
    · cases named
      rw [whole "YYYY-MM-DD".toList]
      exact fitsFormat_date.2 ⟨s.toList, [], hd, (List.append_nil _).symm, rfl⟩
    · cases named
      exact fitsFormat_time.2 ht
    · cases named
      have shape : "YYYY-MM-DDTHH:MM:SS".toList =
        "YYYY-MM-DD".toList ++ 'T' :: "HH:MM:SS".toList := rfl
      rw [shape, he]
      exact fitsFormat_date.2 ⟨_, _, hd, rfl,
        (fitsFormat_literal rfl).2 ⟨_, rfl, fitsFormat_time.2 ht⟩⟩
  · intro fits
    cases t with
    | string => exact .string s
    | bigInteger => exact .bigInteger s
    | integer => cases h
    | real => cases h
    | date =>
      have date := fits _ rfl
      rw [whole "YYYY-MM-DD".toList] at date
      obtain ⟨date, rest, hd, he, last⟩ := fitsFormat_date.1 date
      obtain rfl := fitsFormat_nil.1 last
      rw [List.append_nil] at he
      exact .date (he ▸ hd)
    | time => exact .time (fitsFormat_time.1 (fits _ rfl))
    | dateTime =>
      have both : fitsFormat ("YYYY-MM-DD".toList ++ 'T' :: "HH:MM:SS".toList) s.toList = true :=
        fits _ rfl
      obtain ⟨date, rest, hd, he, after⟩ := fitsFormat_date.1 both
      obtain ⟨time, rfl, ht⟩ := (fitsFormat_literal rfl).1 after
      exact .dateTime hd (fitsFormat_time.1 ht) he

/-- A value of a type that is no number's is a text. -/
theorem Fits.isStr {t : DataType} {v : Json} (h : t.isNumeric = false) (fits : Fits t v) :
    ∃ s, v = .str s := by
  cases fits with
  | integer => cases h
  | real => cases h
  | _ => exact ⟨_, rfl⟩

theorem fits_iff_isNumber {t : DataType} (h : t.isNumeric = true) (v : Json) :
    Fits t v ↔ v.isNumber = true := by
  constructor
  · intro fits
    cases fits with
    | integer number => exact number
    | real number => exact number
    | _ => cases h
  · intro number
    cases t with
    | integer => exact .integer number
    | real => exact .real number
    | _ => cases h

theorem checkScalar_iff {field : String} {t : DataType} {op : Operator} {v : Json} :
    checkScalar field t op v = .ok () ↔ Fits t v := by
  unfold checkScalar
  dsimp only
  cases numeric : t.isNumeric with
  | true =>
    rw [if_pos rfl, fits_iff_isNumber numeric]
    split
    · rename_i number
      exact ⟨fun _ => number, fun _ => rfl⟩
    · rename_i other
      exact ⟨nofun, fun number => absurd number other⟩
  | false =>
    rw [if_neg Bool.false_ne_true]
    split
    · rename_i s
      rw [fits_str_iff numeric]
      split
      · rename_i free
        refine ⟨fun _ format named => ?_, fun _ => rfl⟩
        rw [free] at named
        cases named
      · rename_i format named
        split
        · rename_i fits
          refine ⟨fun _ other same => ?_, fun _ => rfl⟩
          rw [named] at same
          cases same
          exact fits
        · rename_i misfit
          exact ⟨nofun, fun fits => absurd (fits format named) misfit⟩
    · rename_i other
      refine ⟨nofun, fun fits => ?_⟩
      obtain ⟨s, rfl⟩ := fits.isStr numeric
      exact absurd rfl (other s)

theorem checkScalars_iff {field : String} {t : DataType} {op : Operator} {vs : List Json} :
    checkScalars field t op vs = .ok () ↔ ∀ v ∈ vs, Fits t v := by
  induction vs with
  | nil => simp [checkScalars]
  | cons v rest ih =>
    rw [List.forall_mem_cons, ← ih, ← checkScalar_iff, checkScalars]
    split
    · rename_i fits
      exact ⟨fun others => ⟨fits, others⟩, And.right⟩
    · rename_i fault found
      rw [found]
      exact ⟨nofun, nofun⟩

/-- What the check of an operator's elements besides the field accepts. -/
theorem checkValue_iff {field : String} {t : DataType} {op : Operator} (h : op.isUnary = false)
    {v : Json} : checkValue field t op v = .ok () ↔ Takes t op.valueKind [v] := by
  unfold checkValue
  cases kind : op.valueKind with
  | none => simp [Operator.isUnary, kind] at h
  | scalar =>
    rw [checkScalar_iff]
    constructor
    · exact .scalar
    · rintro ⟨⟩
      assumption
  | list =>
    dsimp only
    split
    · rw [checkScalars_iff]
      constructor
      · exact .list
      · rintro ⟨⟩
        assumption
    · rename_i other
      refine ⟨nofun, fun takes => ?_⟩
      cases takes
      exact absurd rfl (other _)

/-! ## Values at fault -/

/-- What is found at fault in a value for a field of the data type: its JSON type, its format, or
an element of it. -/
inductive Misfit (key : String) (t : DataType) (op : Operator) : Json → Fault → Prop
  | type {v : Json} (expected : String) :
      Misfit key t op v (.wrongValueType (shownText key) t op expected (shown v))
  | format {v : Json} {format : String} : t.format? = some format →
      Misfit key t op v (.wrongFormat (shownText key) t format (shown v))
  | element {items : List Json} {v : Json} {fault : Fault} : v ∈ items → Misfit key t op v fault →
      Misfit key t op (.arr items) fault

section
variable {key : String} {t : DataType} {op : Operator} {fault : Fault}

/-- A value at fault is no fault in the grammar. -/
theorem Misfit.isShape {v : Json} (h : Misfit key t op v fault) : fault.isShape = false := by
  induction h with
  | type => rfl
  | format => rfl
  | element _ _ ih => exact ih

theorem Misfit.name {v : Json} (h : Misfit key t op v fault) :
    fault.name ∈ ["InvalidValueType", "InvalidPattern"] := by
  induction h with
  | type => exact .head _
  | format => exact .tail _ (.head _)
  | element _ _ ih => exact ih

/-- A fault in a value is its JSON type or its format. -/
theorem checkScalar_error {v : Json} (h : checkScalar key t op v = .error fault) :
    fault = .wrongValueType (shownText key) t op (expectedType t) (shown v) ∨
      ∃ format, t.format? = some format ∧
        fault = .wrongFormat (shownText key) t format (shown v) := by
  unfold checkScalar at h
  dsimp only at h
  split at h
  · split at h
    · cases h
    · exact .inl (Except.error.inj h).symm
  · split at h
    · split at h
      · cases h
      · rename_i format named
        split at h
        · cases h
        · exact .inr ⟨format, named, (Except.error.inj h).symm⟩
    · exact .inl (Except.error.inj h).symm

/-- A fault in a list of values is one in the first value that does not fit. -/
theorem checkScalars_error {vs : List Json} (h : checkScalars key t op vs = .error fault) :
    ∃ before v rest, vs = before ++ v :: rest ∧ (∀ u ∈ before, Fits t u) ∧
      checkScalar key t op v = .error fault := by
  induction vs with
  | nil => cases h
  | cons v rest ih =>
    rw [checkScalars] at h
    split at h
    · rename_i fits
      obtain ⟨before, w, after, rfl, others, found⟩ := ih h
      have first : Fits t v := checkScalar_iff.1 fits
      exact ⟨v :: before, w, after, rfl, List.forall_mem_cons.2 ⟨first, others⟩, found⟩
    · rename_i found
      obtain rfl := Except.error.inj h
      exact ⟨[], v, rest, rfl, nofun, found⟩

theorem not_fits_of_checkScalar {v : Json} (h : checkScalar key t op v = .error fault) :
    ¬ Fits t v := by
  intro fits
  rw [checkScalar_iff.2 fits] at h
  cases h

theorem misfit_of_checkScalar {v : Json} (h : checkScalar key t op v = .error fault) :
    Misfit key t op v fault := by
  obtain rfl | ⟨format, named, rfl⟩ := checkScalar_error h
  · exact .type _
  · exact .format named

theorem misfit_of_checkValue {v : Json} (h : checkValue key t op v = .error fault) :
    Misfit key t op v fault := by
  unfold checkValue at h
  split at h
  · cases h
  · exact misfit_of_checkScalar h
  · split at h
    · obtain ⟨before, w, rest, rfl, -, found⟩ := checkScalars_error h
      exact .element (by simp) (misfit_of_checkScalar found)
    · obtain rfl := Except.error.inj h
      exact .type _

end

/-! ## Default values -/

theorem digitRow_lastDigits (width n : Nat) : DigitRow width (lastDigits width n) := by
  have digit : ∀ d : Fin 10, '0' ≤ Nat.digitChar d ∧ Nat.digitChar d ≤ '9' := by decide
  induction width generalizing n with
  | zero => exact ⟨rfl, by simp [lastDigits]⟩
  | succ width ih =>
    obtain ⟨length, digits⟩ := ih (n / 10)
    refine ⟨by simp [lastDigits, length], ?_⟩
    intro c hc
    obtain hc | hc := List.mem_append.1 hc
    · exact digits c hc
    · obtain rfl := List.mem_singleton.1 hc
      exact digit ⟨n % 10, Nat.mod_lt n (by decide)⟩

theorem dateRow_text (d : Day) : DateRow d.text.toList := by
  have chars : d.text.toList = lastDigits 4 d.year ++
      '-' :: (lastDigits 2 d.month ++ '-' :: lastDigits 2 d.day) := by
    simp [Day.text, Day.chars]
  rw [chars]
  exact .mk (digitRow_lastDigits 4 _) (digitRow_lastDigits 2 _) (digitRow_lastDigits 2 _)

theorem timeRow_midnight : TimeRow "00:00:00".toList := by
  have zeros : DigitRow 2 ['0', '0'] := ⟨rfl, by simp⟩
  exact .mk zeros zeros zeros

/-- The value that a new condition starts with is one of the type of its field. -/
theorem fits_defaultValue (t : DataType) (today : Day) : Fits t (t.defaultValue today) := by
  cases t with
  | string => exact .string ""
  | integer => exact .integer rfl
  | bigInteger => exact .bigInteger "0"
  | real => exact .real rfl
  | date => exact .date (dateRow_text today)
  | time => exact .time timeRow_midnight
  | dateTime =>
    refine .dateTime (dateRow_text today) timeRow_midnight ?_
    simp

end FieldFilter.Validation
