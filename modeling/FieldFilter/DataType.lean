import FieldFilter.Json.Basic

/-!
Data types of fields, and the values they take. Numbers are written as JSON numbers, everything
else as text; dates and times have one fixed format each.
-/

namespace FieldFilter

inductive DataType
  | string
  | integer
  | bigInteger
  | real
  | date
  | time
  | dateTime
  deriving DecidableEq, Repr

/-- A day of the calendar, as far as it is written with four, two and two digits. -/
structure Day where
  year : Fin 10000
  month : Fin 100
  day : Fin 100
  deriving DecidableEq, Repr

/-- The last `width` digits of a number. -/
def lastDigits : (width : Nat) → Nat → List Char
  | 0, _ => []
  | k + 1, n => lastDigits k (n / 10) ++ [Nat.digitChar (n % 10)]

def Day.chars (d : Day) : List Char :=
  lastDigits 4 d.year ++ '-' :: lastDigits 2 d.month ++ '-' :: lastDigits 2 d.day

def Day.text (d : Day) : String := String.ofList d.chars

namespace DataType

def all : List DataType := [string, integer, bigInteger, real, date, time, dateTime]

def name : DataType → String
  | string => "STRING"
  | integer => "INTEGER"
  | bigInteger => "BIGINT"
  | real => "REAL"
  | date => "DATE"
  | time => "TIME"
  | dateTime => "DATETIME"

/-- The type with exactly the given name. -/
def ofName? (s : String) : Option DataType := all.find? (·.name == s)

/-- Whether values are JSON numbers. -/
def isNumeric (t : DataType) : Bool := t = integer || t = real

/-- The format of the values of a temporal type: a letter of `YMDHS` stands for a digit, and any
other character for itself. -/
def format? : DataType → Option String
  | date => some "YYYY-MM-DD"
  | time => some "HH:MM:SS"
  | dateTime => some "YYYY-MM-DDTHH:MM:SS"
  | _ => none

def isTemporal (t : DataType) : Bool := t.format?.isSome

/-- The value that a new condition compares a field of this type with. -/
def defaultValue (today : Day) : DataType → Json
  | string => .str ""
  | integer | real => .int 0
  | bigInteger => .str "0"
  | date => .str today.text
  | time => .str "00:00:00"
  | dateTime => .str (today.text ++ "T00:00:00")

end DataType

/-- Whether a text has the given format, character by character. -/
def fitsFormat : (format text : List Char) → Bool
  | [], [] => true
  | f :: format, c :: text =>
    (if ['Y', 'M', 'D', 'H', 'S'].contains f then c.isDigit else c == f) &&
      fitsFormat format text
  | _, _ => false

theorem DataType.ofName?_name (t : DataType) : ofName? t.name = some t := by
  cases t <;> decide +kernel

end FieldFilter
