import FieldFilter.Json.Reader
import FieldFilter.Proofs.Decimal.Numerals

/-!
# Reading tokens

How the reader takes in the characters of a numeral (`nexts?_numeral`) and those of a glyph of a
string literal (`run?_glyph`), if they are such as are written.
-/

namespace FieldFilter

namespace Json

namespace OpenNumeral

/-- The numeral with a row of characters more, if it can go on so. -/
def nexts? (n : OpenNumeral) : List Char → Option OpenNumeral
  | [] => some n
  | c :: rest =>
    match n.next? c with
    | some n => nexts? n rest
    | none => none

theorem nexts?_append (n : OpenNumeral) (xs ys : List Char) :
    n.nexts? (xs ++ ys) = (n.nexts? xs).bind (nexts? · ys) := by
  induction xs generalizing n with
  | nil => rfl
  | cons c rest ih =>
    simp only [List.cons_append, nexts?]
    cases n.next? c with
    | none => rfl
    | some n => exact ih n

section
variable {negative powerNegative : Bool} {whole fraction power row : List Char}

theorem nexts?_whole (h : ∀ c ∈ row, c.isDigit = true) :
    nexts? ⟨.whole, negative, whole, fraction, powerNegative, power⟩ row =
      some ⟨.whole, negative, row.reverse ++ whole, fraction, powerNegative, power⟩ := by
  induction row generalizing whole with
  | nil => rfl
  | cons c rest ih =>
    obtain ⟨digit, others⟩ := List.forall_mem_cons.1 h
    simp [nexts?, next?, digit, ih others]

theorem nexts?_fraction (h : ∀ c ∈ row, c.isDigit = true) :
    nexts? ⟨.fraction, negative, whole, fraction, powerNegative, power⟩ row =
      some ⟨.fraction, negative, whole, row.reverse ++ fraction, powerNegative, power⟩ := by
  induction row generalizing fraction with
  | nil => rfl
  | cons c rest ih =>
    obtain ⟨digit, others⟩ := List.forall_mem_cons.1 h
    simp [nexts?, next?, digit, ih others]

theorem nexts?_power (h : ∀ c ∈ row, c.isDigit = true) :
    nexts? ⟨.power, negative, whole, fraction, powerNegative, power⟩ row =
      some ⟨.power, negative, whole, fraction, powerNegative, row.reverse ++ power⟩ := by
  induction row generalizing power with
  | nil => rfl
  | cons c rest ih =>
    obtain ⟨digit, others⟩ := List.forall_mem_cons.1 h
    simp [nexts?, next?, digit, ih others]

end

section
variable {n : Decimal.Numeral}

/-- The sign and the digits in front of the point. -/
theorem nexts?_start (h : n.WellFormed) : ∃ c rest o part,
    (if n.negative then ['-'] else []) ++ n.whole = c :: rest ∧
      start? c = some o ∧ (part = .zero ∨ part = .whole) ∧
      nexts? o rest = some ⟨part, n.negative, n.whole.reverse, [], false, []⟩ := by
  obtain ⟨c, row, split⟩ := List.exists_cons_of_ne_nil h.some
  obtain ⟨digit, others⟩ := List.forall_mem_cons.1 (split ▸ h.whole)
  have unsigned : c ≠ '-' := by
    rintro rfl
    cases digit
  -- The first digit leads to a part that the others stay in.
  obtain ⟨part, own, start, signed, rest⟩ : ∃ part, (part = .zero ∨ part = .whole) ∧
      start? c = some ⟨part, false, [c], [], false, []⟩ ∧
      next? ⟨.sign, true, [], [], false, []⟩ c = some ⟨part, true, [c], [], false, []⟩ ∧
      ∀ negative, nexts? ⟨part, negative, [c], [], false, []⟩ row =
        some ⟨part, negative, row.reverse ++ [c], [], false, []⟩ := by
    by_cases zero : c = '0'
    · subst zero
      obtain rfl := h.zero row split
      exact ⟨.zero, .inl rfl, rfl, rfl, fun _ => rfl⟩
    · refine ⟨.whole, .inr rfl, ?_, ?_, fun _ => nexts?_whole others⟩
      · simp [start?, unsigned, zero, digit]
      · simp [next?, zero, digit]
  rw [split, List.reverse_cons]
  cases n.negative with
  | false => exact ⟨c, row, _, part, rfl, start, own, rest false⟩
  | true =>
    refine ⟨'-', c :: row, _, part, rfl, rfl, own, ?_⟩
    rw [nexts?, signed]
    exact rest true

/-- The point and the digits after it. -/
theorem nexts?_point (h : n.WellFormed) {part : NumeralPart} (own : part = .zero ∨ part = .whole)
    (negative : Bool) (whole : List Char) : ∃ part', (part' = .zero ∨ part' = .whole ∨ part' = .fraction) ∧
      nexts? ⟨part, negative, whole, [], false, []⟩
          (if n.fraction.isEmpty then [] else '.' :: n.fraction) =
        some ⟨part', negative, whole, n.fraction.reverse, false, []⟩ := by
  cases split : n.fraction with
  | nil => exact ⟨part, by tauto, rfl⟩
  | cons c row =>
    obtain ⟨digit, others⟩ := List.forall_mem_cons.1 (split ▸ h.fraction)
    have point : next? ⟨part, negative, whole, [], false, []⟩ '.' =
        some ⟨.point, negative, whole, [], false, []⟩ := by
      obtain rfl | rfl := own <;> rfl
    refine ⟨.fraction, .inr (.inr rfl), ?_⟩
    rw [if_neg (by simp), nexts?, point]
    simp [nexts?, next?, digit, nexts?_fraction others]

/-- The power of ten, after which the numeral can be closed. -/
theorem nexts?_mark (h : n.WellFormed) {part : NumeralPart}
    (own : part = .zero ∨ part = .whole ∨ part = .fraction) (negative : Bool)
    (whole fraction : List Char) : ∃ o, nexts? ⟨part, negative, whole, fraction, false, []⟩
          (match n.power with
            | none => []
            | some p => 'e' :: (if p.negative then '-' else '+') :: p.digits) = some o ∧
        o.close? = some ⟨negative, whole.reverse, fraction.reverse, n.power⟩ := by
  cases power : n.power with
  | none =>
    refine ⟨_, rfl, ?_⟩
    obtain rfl | rfl | rfl := own <;> rfl
  | some p =>
    obtain ⟨some, digits⟩ := h.power p power
    obtain ⟨c, row, split⟩ := List.exists_cons_of_ne_nil some
    obtain ⟨digit, others⟩ := List.forall_mem_cons.1 (split ▸ digits)
    have mark : next? ⟨part, negative, whole, fraction, false, []⟩ 'e' =
        Option.some ⟨.mark, negative, whole, fraction, false, []⟩ := by
      obtain rfl | rfl | rfl := own <;> rfl
    have sign : next? ⟨.mark, negative, whole, fraction, false, []⟩
        (if p.negative then '-' else '+') =
        Option.some ⟨.powerSign, negative, whole, fraction, p.negative, []⟩ := by
      cases p.negative <;> rfl
    have first : next? ⟨.powerSign, negative, whole, fraction, p.negative, []⟩ c =
        Option.some ⟨.power, negative, whole, fraction, p.negative, [c]⟩ := if_pos digit
    refine ⟨⟨.power, negative, whole, fraction, p.negative, row.reverse ++ [c]⟩, ?_, ?_⟩
    · simp only [nexts?, mark, sign, split, first]
      exact nexts?_power others
    · simp [close?, split.symm]

/-- The reader takes in all characters of a numeral, and can close it with the numeral. -/
theorem nexts?_numeral (h : n.WellFormed) : ∃ c rest start o, n.chars = c :: rest ∧
    start? c = some start ∧ nexts? start rest = some o ∧ o.close? = some n := by
  obtain ⟨c, rest, start, part, split, started, own, read⟩ := nexts?_start h
  obtain ⟨part', own', read'⟩ := nexts?_point h own n.negative n.whole.reverse
  obtain ⟨o, read'', closed⟩ := nexts?_mark h own' n.negative n.whole.reverse n.fraction.reverse
  rw [List.reverse_reverse, List.reverse_reverse] at closed
  have chars : n.chars = (if n.negative then ['-'] else []) ++ n.whole ++
      (if n.fraction.isEmpty then [] else '.' :: n.fraction) ++
      (match n.power with
        | none => []
        | some p => 'e' :: (if p.negative then '-' else '+') :: p.digits) := rfl
  rw [split, List.cons_append, List.cons_append] at chars
  refine ⟨c, _, start, o, chars, started, ?_, closed⟩
  rw [List.append_assoc, nexts?_append, read, Option.bind_some, nexts?_append, read',
    Option.bind_some]
  exact read''

end

/-- A numeral does not go on with a character that follows values. -/
theorem next?_delimiter (n : OpenNumeral) {c : Char} (h : c ∈ [',', ']', '}', '\n']) :
    n.next? c = none := by
  obtain ⟨part, negative, whole, fraction, powerNegative, power⟩ := n
  obtain rfl | rfl | rfl | rfl : c = ',' ∨ c = ']' ∨ c = '}' ∨ c = '\n' := by simpa using h
  all_goals cases part <;> rfl

end OpenNumeral

theorem Cursor.run?_append (limit : Option Nat) (cur : Cursor) (xs ys : List Char) :
    cur.run? limit (xs ++ ys) = (cur.run? limit xs).bind fun cur => cur.run? limit ys := by
  induction xs generalizing cur with
  | nil => rfl
  | cons c rest ih =>
    simp only [List.cons_append, run?]
    cases cur.step? limit c with
    | none => rfl
    | some cur => exact ih cur

/-- Once a numeral was started, it takes all characters that it can go on with. -/
theorem Cursor.run?_numeral (limit : Option Nat) (around : List Frame) {n o : OpenNumeral}
    {row : List Char} (h : n.nexts? row = some o) :
    run? limit ⟨around, .number n⟩ row = some ⟨around, .number o⟩ := by
  induction row generalizing n with
  | nil =>
    obtain rfl := Option.some.inj h
    rfl
  | cons c rest ih =>
    rw [OpenNumeral.nexts?] at h
    split at h
    · rename_i m next
      simp only [run?, step?, next]
      exact ih h
    · cases h

end Json

namespace Glyph

/-- The glyph stands for a character in the way that the reader takes it. -/
def WellFormed : Glyph → Prop
  | plain c => c ≠ '"' ∧ c ≠ '\\' ∧ 0x20 ≤ c.toNat
  | short letter => (shortMeaning letter).isSome = true
  | unit code => code < 0x10000

/-- Characters are written as well-formed glyphs. -/
theorem wellFormed_ofChar (c : Char) : (ofChar c).WellFormed := by
  unfold ofChar
  split
  case h_8 =>
    rename_i quote backslash _ _ _ _ _
    split
    · rename_i control
      exact Nat.lt_of_lt_of_le control (by decide)
    · rename_i visible
      exact ⟨quote, backslash, Nat.not_lt.1 visible⟩
  all_goals rfl

theorem hexDigit?_digitChar {d : Nat} (h : d < 16) : Text.hexDigit? (Nat.digitChar d) = some d := by
  have all : ∀ d : Fin 16, Text.hexDigit? (Nat.digitChar d) = some d.val := by decide
  exact all ⟨d, h⟩

open Json in
/-- The reader takes in the characters of a glyph. -/
theorem run?_glyph {g : Glyph} (h : g.WellFormed) (limit : Option Nat) (around : List Frame)
    (slot : Slot) (done : List Glyph) :
    Cursor.run? limit ⟨around, .string slot done .closed⟩ g.chars =
      some ⟨around, .string slot (g :: done) .closed⟩ := by
  cases g with
  | plain c =>
    obtain ⟨quote, backslash, visible⟩ := h
    simp [chars, Cursor.run?, Cursor.step?, Cursor.stringStep?, quote, backslash,
      Nat.not_lt.2 visible]
  | short letter =>
    have other : letter ≠ 'u' := by
      rintro rfl
      cases h
    have meaning : (shortMeaning letter).isSome = true := h
    simp [chars, Cursor.run?, Cursor.step?, Cursor.stringStep?, other, meaning]
  | unit code =>
    have digit (n : Nat) : Text.hexDigit? (Nat.digitChar (n % 16)) = some (n % 16) :=
      hexDigit?_digitChar (Nat.mod_lt n (by norm_num))
    have whole : 16 * (16 * (16 * (code / 4096 % 16) + code / 256 % 16) + code / 16 % 16) +
        code % 16 = code := by
      have : code < 0x10000 := h
      omega
    simp [chars, Cursor.run?, Cursor.step?, Cursor.stringStep?, digit, whole]

end Glyph

end FieldFilter
