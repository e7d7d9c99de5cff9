import FieldFilter.Json.Raw
import FieldFilter.Text

/-!
Reading JSON. The reader takes one character at a time. It keeps the containers around the place
it is at, outermost last, and what may come next there. Main entries: `Raw.read?` gives a text as
written, and `Json.read?` the value it means, for texts that nest less than 128 deep.
-/

namespace FieldFilter.Json

/-- How much of a numeral has been read. -/
inductive NumeralPart
  | sign
  /-- a leading zero, after which no digit may follow -/
  | zero
  | whole
  | point
  | fraction
  | mark
  | powerSign
  | power
  deriving DecidableEq, Repr

/-- A numeral being read; its digits are kept in reverse. -/
structure OpenNumeral where
  part : NumeralPart
  negative : Bool
  whole : List Char
  fraction : List Char
  powerNegative : Bool
  power : List Char
  deriving DecidableEq, Repr

namespace OpenNumeral

/-- A numeral starts with a minus sign or a digit. -/
def start? (c : Char) : Option OpenNumeral :=
  if c = '-' then some ⟨.sign, true, [], [], false, []⟩
  else if c = '0' then some ⟨.zero, false, [c], [], false, []⟩
  else if c.isDigit then some ⟨.whole, false, [c], [], false, []⟩
  else none

/-- The numeral with one character more, if it can go on so. -/
def next? (n : OpenNumeral) (c : Char) : Option OpenNumeral :=
  let digit := c.isDigit
  match n.part with
  | .sign =>
    if c = '0' then some { n with part := .zero, whole := [c] }
    else if digit then some { n with part := .whole, whole := [c] }
    else none
  | .zero =>
    if c = '.' then some { n with part := .point }
    else if c = 'e' ∨ c = 'E' then some { n with part := .mark }
    else none
  | .whole =>
    if digit then some { n with whole := c :: n.whole }
    else if c = '.' then some { n with part := .point }
    else if c = 'e' ∨ c = 'E' then some { n with part := .mark }
    else none
  | .point => if digit then some { n with part := .fraction, fraction := [c] } else none
  | .fraction =>
    if digit then some { n with fraction := c :: n.fraction }
    else if c = 'e' ∨ c = 'E' then some { n with part := .mark }
    else none
  | .mark =>
    if digit then some { n with part := .power, power := [c] }
    else if c = '+' then some { n with part := .powerSign }
    else if c = '-' then some { n with part := .powerSign, powerNegative := true }
    else none
  | .powerSign => if digit then some { n with part := .power, power := [c] } else none
  | .power => if digit then some { n with power := c :: n.power } else none

/-- The numeral, if it may end here. -/
def close? (n : OpenNumeral) : Option Decimal.Numeral :=
  match n.part with
  | .zero | .whole | .fraction => some ⟨n.negative, n.whole.reverse, n.fraction.reverse, none⟩
  | .power =>
    some ⟨n.negative, n.whole.reverse, n.fraction.reverse,
      some ⟨n.powerNegative, n.power.reverse⟩⟩
  | _ => none

end OpenNumeral

/-- A container around the place that is read, with what it holds so far, last first. -/
inductive Frame
  | array (done : List Raw)
  | object (done : List (List Glyph × Raw)) (key : List Glyph)
  deriving Repr

/-- What a string literal is read for. -/
inductive Slot
  | value
  | key (done : List (List Glyph × Raw))
  deriving Repr

/-- How much of an escape has been read. -/
inductive Escape
  | closed
  | backslash
  | hex (left : Nat) (code : Nat)
  deriving DecidableEq, Repr

/-- What has just been read, and so what may come next. -/
inductive Place
  /-- a value must start -/
  | value
  /-- after an opening bracket -/
  | arrayStart
  /-- after an element -/
  | element (done : List Raw)
  /-- after an opening brace -/
  | objectStart
  /-- a key must start -/
  | key (done : List (List Glyph × Raw))
  /-- after a key -/
  | colon (done : List (List Glyph × Raw)) (key : List Glyph)
  /-- after a member -/
  | member (done : List (List Glyph × Raw))
  /-- inside a string literal; its glyphs are in reverse -/
  | string (slot : Slot) (done : List Glyph) (escape : Escape)
  | number (n : OpenNumeral)
  /-- inside a word, with the rest of it still to come -/
  | word (rest : List Char) (meaning : Raw)
  /-- after the whole value -/
  | finished (r : Raw)
  deriving Repr

structure Cursor where
  around : List Frame
  place : Place
  deriving Repr

/-- Whether a container may be opened inside others; without a limit it always may. -/
def admits (limit : Option Nat) (around : List Frame) : Bool :=
  match limit with
  | none => true
  | some n => around.length < n

def isJsonBlank (c : Char) : Bool := c = ' ' || c = '\n' || c = '\r' || c = '\t'

namespace Cursor

/-- The place after a complete value. -/
def fill (around : List Frame) (r : Raw) : Cursor :=
  match around with
  | [] => ⟨[], .finished r⟩
  | .array done :: outer => ⟨outer, .element (r :: done)⟩
  | .object done key :: outer => ⟨outer, .member ((key, r) :: done)⟩

/-- Starts a value with its first character. -/
def open? (limit : Option Nat) (around : List Frame) (c : Char) : Option Cursor :=
  match c with
  | '[' => if admits limit around then some ⟨around, .arrayStart⟩ else none
  | '{' => if admits limit around then some ⟨around, .objectStart⟩ else none
  | '"' => some ⟨around, .string .value [] .closed⟩
  | 't' => some ⟨around, .word ['r', 'u', 'e'] (.bool true)⟩
  | 'f' => some ⟨around, .word ['a', 'l', 's', 'e'] (.bool false)⟩
  | 'n' => some ⟨around, .word ['u', 'l', 'l'] .null⟩
  | c => (OpenNumeral.start? c).map fun n => ⟨around, .number n⟩

/-- A character between two values. -/
def between? (cur : Cursor) (c : Char) : Option Cursor :=
  if isJsonBlank c then some cur
  else match cur.place, c with
  | .element done, ',' => some ⟨.array done :: cur.around, .value⟩
  | .element done, ']' => some (fill cur.around (.array done.reverse))
  | .member done, ',' => some ⟨cur.around, .key done⟩
  | .member done, '}' => some (fill cur.around (.object done.reverse))
  | _, _ => none

/-- A character inside a string literal. -/
def stringStep? (around : List Frame) (slot : Slot) (done : List Glyph) (escape : Escape)
    (c : Char) : Option Cursor :=
  match escape with
  | .closed =>
    if c = '"' then
      match slot with
      | .value => some (fill around (.string done.reverse))
      | .key members => some ⟨around, .colon members done.reverse⟩
    else if c = '\\' then some ⟨around, .string slot done .backslash⟩
    else if c.toNat < 0x20 then none
    else some ⟨around, .string slot (.plain c :: done) .closed⟩
  | .backslash =>
    if c = 'u' then some ⟨around, .string slot done (.hex 4 0)⟩
    else if (Glyph.shortMeaning c).isSome then
      some ⟨around, .string slot (.short c :: done) .closed⟩
    else none
  | .hex left code =>
    match Text.hexDigit? c with
    | none => none
    | some d =>
      if left ≤ 1 then some ⟨around, .string slot (.unit (16 * code + d) :: done) .closed⟩
      else some ⟨around, .string slot done (.hex (left - 1) (16 * code + d))⟩

/-- Reads one character. A numeral ends at the first character that cannot belong to it. -/
def step? (limit : Option Nat) (cur : Cursor) (c : Char) : Option Cursor :=
  match cur.place with
  | .value => if isJsonBlank c then some cur else open? limit cur.around c
  | .arrayStart =>
    if isJsonBlank c then some cur
    else if c = ']' then some (fill cur.around (.array []))
    else open? limit (.array [] :: cur.around) c
  | .objectStart =>
    if isJsonBlank c then some cur
    else if c = '}' then some (fill cur.around (.object []))
    else if c = '"' then some ⟨cur.around, .string (.key []) [] .closed⟩
    else none
  | .key done =>
    if isJsonBlank c then some cur
    else if c = '"' then some ⟨cur.around, .string (.key done) [] .closed⟩
    else none
  | .colon done key =>
    if isJsonBlank c then some cur
    else if c = ':' then some ⟨.object done key :: cur.around, .value⟩
    else none
  | .string slot done escape => stringStep? cur.around slot done escape c
  | .number n =>
    match n.next? c with
    | some n => some ⟨cur.around, .number n⟩
    | none =>
      match n.close? with
      | some numeral => between? (fill cur.around (.number numeral)) c
      | none => none
  | .word rest meaning =>
    match rest with
    | d :: rest =>
      if c = d then
        match rest with
        | [] => some (fill cur.around meaning)
        | _ :: _ => some ⟨cur.around, .word rest meaning⟩
      else none
    | [] => none
  | .element _ | .member _ | .finished _ => between? cur c

/-- Reads a row of characters. -/
def run? (limit : Option Nat) (cur : Cursor) : List Char → Option Cursor
  | [] => some cur
  | c :: rest =>
    match cur.step? limit c with
    | some next => run? limit next rest
    | none => none

/-- The value, if the text may end here. -/
def close? (cur : Cursor) : Option Raw :=
  match cur.place with
  | .finished r => some r
  | .number n =>
    match cur.around, n.close? with
    | [], some numeral => some (.number numeral)
    | _, _ => none
  | _ => none

end Cursor

/-- The greatest number of containers around a scalar. -/
def nestingLimit : Nat := 127

end Json

/-- The one value written in a text, blanks around it aside. -/
def Raw.read? (limit : Option Nat) (text : String) : Option Raw :=
  (Json.Cursor.run? limit ⟨[], .value⟩ text.toList).bind Json.Cursor.close?

/-- The value that a text means. -/
def Json.read? (text : String) : Option Json :=
  (Raw.read? (some Json.nestingLimit) text).bind Raw.value?

end FieldFilter
