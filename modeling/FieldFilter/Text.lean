/-!
Text. Which texts are blank, how a piece of input is clipped for a message, and what hexadecimal
digits stand for.
-/

namespace FieldFilter.Text

/-! ## Blanks -/

/-- The first and last code point of every run of characters with the `White_Space` property of
Unicode, in ascending order: 25 code points. -/
def blankRanges : List (Nat × Nat) :=
  [(0x9, 0xD), (0x20, 0x20), (0x85, 0x85), (0xA0, 0xA0), (0x1680, 0x1680), (0x2000, 0x200A),
    (0x2028, 0x2029), (0x202F, 0x202F), (0x205F, 0x205F), (0x3000, 0x3000)]

def isBlankChar (c : Char) : Bool :=
  blankRanges.any fun r => r.1 ≤ c.toNat && c.toNat ≤ r.2

/-- Whether nothing of a text is left once blanks are taken off its ends. -/
def isBlank (s : String) : Bool := s.toList.all isBlankChar

/-- The characters of a text without the blanks at either end. -/
def trimmed (s : String) : List Char :=
  ((s.toList.dropWhile isBlankChar).reverse.dropWhile isBlankChar).reverse

/-! ## Clipping

A piece of input that is shown in a message keeps its first characters only, so that a message stays
short however long the input is. Characters are never split.
-/

/-- A text of at most `limit` characters as it is; of a longer one the first `limit` characters and
three dots. -/
def clip (limit : Nat) (s : String) : String :=
  if s.length ≤ limit then s else String.ofList (s.toList.take limit) ++ "..."

theorem clip_of_length_le {limit : Nat} {s : String} (h : s.length ≤ limit) :
    clip limit s = s := if_pos h

/-- A clipped text is at most three characters longer than the limit. -/
theorem length_clip_le (limit : Nat) (s : String) : (clip limit s).length ≤ limit + 3 := by
  unfold clip
  split
  · omega
  · have : "...".length = 3 := rfl
    simp only [String.length_append, String.length_ofList, List.length_take, this]
    omega

/-! ## Hexadecimal digits -/

/-- The number that a hexadecimal digit stands for, in either case of its letters. -/
def hexDigit? (c : Char) : Option Nat :=
  if '0' ≤ c && c ≤ '9' then some (c.toNat - '0'.toNat)
  else if 'a' ≤ c && c ≤ 'f' then some (c.toNat - 'a'.toNat + 10)
  else if 'A' ≤ c && c ≤ 'F' then some (c.toNat - 'A'.toNat + 10)
  else none

end FieldFilter.Text
