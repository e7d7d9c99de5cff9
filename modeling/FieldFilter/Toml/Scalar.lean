import FieldFilter.Decimal.Numeral
import FieldFilter.Toml.Basic
import FieldFilter.Toml.Text

/-!
Numbers, dates, times and words of TOML. Each is a row of characters without a blank, save for one
blank that may stand between a date and a time.
-/

namespace FieldFilter.Toml

/-- The digits of a row in which single underscores may stand between digits. -/
def ungrouped? (isDigit : Char → Bool) (done : List Char) : List Char → Option (List Char)
  | [] => none
  | [c] => if isDigit c then some (c :: done).reverse else none
  | c :: '_' :: rest => if isDigit c then ungrouped? isDigit (c :: done) rest else none
  | c :: rest => if isDigit c then ungrouped? isDigit (c :: done) rest else none

def decimalDigits? (row : List Char) : Option (List Char) := ungrouped? Char.isDigit [] row

/-- The digits of a number that does not start with a needless zero. -/
def wholeDigits? (row : List Char) : Option (List Char) :=
  match row with
  | '0' :: _ :: _ => none
  | row => decimalDigits? row

/-- A number to a base, after the letters that name it. -/
def based? (base : Nat) (row : List Char) : Option Node := do
  let isDigit (c : Char) : Bool := (Text.hexDigit? c).any (· < base)
  let ds ← ungrouped? isDigit [] row
  let n := ds.foldl (fun n c => base * n + (Text.hexDigit? c).getD 0) 0
  if n < Decimal.signBit then some (.integer n) else none

/-- A row without its sign, and whether that is a minus. -/
def unsigned : List Char → Bool × List Char
  | '-' :: row => (true, row)
  | '+' :: row => (false, row)
  | row => (false, row)

/-- A float has a fraction, a power of ten or both. It must not exceed the finite floats, though it
may be below them. -/
def float? (row : List Char) : Option Node := do
  let (negative, body) := unsigned row
  let (mantissa, power) := body.span fun c => c ≠ 'e' && c ≠ 'E'
  let (whole, fraction) := mantissa.span (· ≠ '.')
  let whole ← wholeDigits? whole
  let fraction ← match fraction with
    | [] => some []
    | _ :: digits => decimalDigits? digits
  let power ← match power with
    | [] => some none
    | _ :: signed =>
      let (negative, digits) := unsigned signed
      (decimalDigits? digits).map fun ds => some (Decimal.Power.mk negative ds)
  let numeral : Decimal.Numeral := ⟨negative, whole, fraction, power⟩
  if negative || numeral.binary?.isSome then some (.float (String.ofList row)) else none

def integer? (row : List Char) : Option Node := do
  let (negative, body) := unsigned row
  let n := Decimal.value (← wholeDigits? body)
  if negative then if n ≤ Decimal.signBit then some (.integer (-n)) else none
  else if n < Decimal.signBit then some (.integer n) else none

def number? (row : List Char) : Option Node :=
  match row with
  | '0' :: 'x' :: rest => based? 16 rest
  | '0' :: 'o' :: rest => based? 8 rest
  | '0' :: 'b' :: rest => based? 2 rest
  | row =>
    match (unsigned row).2 with
    | ['i', 'n', 'f'] | ['n', 'a', 'n'] => some (.float (String.ofList row))
    | body => if body.any fun c => c = '.' || c = 'e' || c = 'E' then float? row else integer? row

/-- Two digits with a value in a range. -/
def twoDigits? (low high : Nat) (a b : Char) : Option Nat :=
  let n := Nat.ofDigitChars 10 [a, b] 0
  if a.isDigit && b.isDigit && low ≤ n && n ≤ high then some n else none

def daysIn (year month : Nat) : Nat :=
  let leap := year % 4 = 0 && (year % 100 ≠ 0 || year % 400 = 0)
  match month with
  | 2 => if leap then 29 else 28
  | 4 | 6 | 9 | 11 => 30
  | _ => 31

/-- Reads a date; it must be a day of the calendar. -/
def date? : List Char → Option Rest
  | a :: b :: c :: d :: '-' :: m :: n :: '-' :: x :: y :: rest => do
    let century ← twoDigits? 0 99 a b
    let year ← twoDigits? 0 99 c d
    let month ← twoDigits? 1 12 m n
    let day ← twoDigits? 1 31 x y
    if day ≤ daysIn (100 * century + year) month then some rest else none
  | _ => none

/-- Reads a time, with a fraction of a second if there is one. -/
def time? : List Char → Option Rest
  | h :: i :: ':' :: m :: n :: ':' :: s :: t :: rest => do
    let _ ← twoDigits? 0 23 h i
    let _ ← twoDigits? 0 59 m n
    let _ ← twoDigits? 0 60 s t
    match rest with
    | '.' :: c :: rest =>
      if c.isDigit then some (rest.dropWhile Char.isDigit) else none
    | rest => some rest
  | _ => none

/-- Whether a row is a time zone, or nothing. -/
def isOffset : List Char → Bool
  | [] => true
  | ['Z'] | ['z'] => true
  | [sign, h, i, ':', m, n] =>
    (sign = '+' || sign = '-') && (twoDigits? 0 23 h i).isSome && (twoDigits? 0 59 m n).isSome
  | _ => false

/-- Whether a row is a time with perhaps a time zone. -/
def isZonedTime (row : List Char) : Bool := (time? row).any isOffset

/-- A date, a time or both. -/
def dateTime? (row : List Char) : Option Node :=
  let whole : Bool := match date? row with
    | some [] => true
    | some (mark :: rest) => (mark = 'T' || mark = 't' || mark = ' ') && isZonedTime rest
    | none => (time? row).any (·.isEmpty)
  if whole then some (.dateTime (String.ofList row)) else none

/-- Whether a row is meant for a date or a time. -/
def isTemporal : List Char → Bool
  | a :: b :: c :: d :: '-' :: _ => [a, b, c, d].all Char.isDigit
  | a :: b :: ':' :: _ => [a, b].all Char.isDigit
  | _ => false

def isScalarChar (c : Char) : Bool :=
  c.isAlphanum || c = '+' || c = '-' || c = '.' || c = '_' || c = ':'

/-- The row of characters that a scalar takes up. -/
def scalarRow (cs : List Char) : List Char × Rest :=
  let (row, rest) := cs.span isScalarChar
  match rest with
  | ' ' :: c :: _ =>
    if c.isDigit && (date? row).any (·.isEmpty) then
      let (time, rest) := (rest.drop 1).span isScalarChar
      (row ++ ' ' :: time, rest)
    else (row, rest)
  | rest => (row, rest)

/-- Reads a scalar that is no string. -/
def scalar? (cs : List Char) : Option (Node × Rest) := do
  let (row, rest) := scalarRow cs
  let node ← match row with
    | ['t', 'r', 'u', 'e'] => some (.boolean true)
    | ['f', 'a', 'l', 's', 'e'] => some (.boolean false)
    | row => if isTemporal row then dateTime? row else number? row
  some (node, rest)

end FieldFilter.Toml
