import FieldFilter.Decimal.Numeral
import FieldFilter.Json.Basic

/-!
Written JSON. `Raw` is a JSON text less its blanks: numbers with their digits, strings with their
escapes, objects with every member as it stands. `Raw.value?` gives the value that is meant, if
there is one, and `Json.raw` the form in which a value is written.
-/

namespace FieldFilter

/-- One character of a string literal, as written. -/
inductive Glyph
  | plain (c : Char)
  /-- a backslash and a letter -/
  | short (letter : Char)
  /-- a backslash, the letter `u` and four hexadecimal digits -/
  | unit (code : Nat)
  deriving DecidableEq, Repr

namespace Glyph

/-- The character meant by a backslash and a letter. -/
def shortMeaning : Char → Option Char
  | '"' => some '"'
  | '\\' => some '\\'
  | '/' => some '/'
  | 'b' => some '\x08'
  | 'f' => some '\x0c'
  | 'n' => some '\n'
  | 'r' => some '\r'
  | 't' => some '\t'
  | _ => none

def isHighSurrogate (code : Nat) : Bool := 0xD800 ≤ code && code < 0xDC00

def isLowSurrogate (code : Nat) : Bool := 0xDC00 ≤ code && code < 0xE000

/-- The characters meant by a literal, after those in `done`, which are in reverse. Two units make
one character when they are a surrogate pair; a surrogate without its partner means nothing. -/
def decodeOnto (done : List Char) : List Glyph → Option (List Char)
  | [] => some done.reverse
  | plain c :: rest => decodeOnto (c :: done) rest
  | short letter :: rest =>
    match shortMeaning letter with
    | some c => decodeOnto (c :: done) rest
    | none => none
  | unit high :: unit low :: rest =>
    if isHighSurrogate high then
      if isLowSurrogate low then
        decodeOnto (Char.ofNat (0x10000 + (high - 0xD800) * 0x400 + (low - 0xDC00)) :: done) rest
      else none
    else if isLowSurrogate high then none
    else decodeOnto (Char.ofNat high :: done) (unit low :: rest)
  | unit code :: rest =>
    if isHighSurrogate code || isLowSurrogate code then none
    else decodeOnto (Char.ofNat code :: done) rest

/-- The text meant by a string literal. -/
def decode (glyphs : List Glyph) : Option String :=
  (decodeOnto [] glyphs).map String.ofList

/-- A quote, a backslash and the control characters are escaped, nothing else. -/
def ofChar (c : Char) : Glyph :=
  match c with
  | '"' => short '"'
  | '\\' => short '\\'
  | '\x08' => short 'b'
  | '\x0c' => short 'f'
  | '\n' => short 'n'
  | '\r' => short 'r'
  | '\t' => short 't'
  | c => if c.toNat < 0x20 then unit c.toNat else plain c

def encode (s : String) : List Glyph := s.toList.map ofChar

/-- The characters of one glyph. -/
def chars : Glyph → List Char
  | plain c => [c]
  | short letter => ['\\', letter]
  | unit code =>
    ['\\', 'u', Nat.digitChar (code / 4096 % 16), Nat.digitChar (code / 256 % 16),
      Nat.digitChar (code / 16 % 16), Nat.digitChar (code % 16)]

end Glyph

/-- A written JSON value. -/
inductive Raw
  | null
  | bool (b : Bool)
  | number (n : Decimal.Numeral)
  | string (glyphs : List Glyph)
  | array (items : List Raw)
  | object (members : List (List Glyph × Raw))
  deriving Repr, Inhabited

namespace Raw

/-- Whole numerals mean integers, as far as those fit a 64-bit word, signed if negative; other
numerals, and minus zero, mean the nearest float. A numeral beyond the floats means nothing.

That the float is the nearest one is an assumption about what reads a text. It makes every float
that was written read as itself, which a reader that may be off in the last place does not do. -/
def number? (n : Decimal.Numeral) : Option Json :=
  let size := n.wholeValue
  if n.isWhole && !n.negative && size < Decimal.wordSize then some (.int size)
  else if n.isWhole && n.negative && 0 < size && size ≤ Decimal.signBit then some (.int (-size))
  else n.binary?.map .real

mutual

/-- The value that is meant. -/
def value? : Raw → Option Json
  | null => some .null
  | bool b => some (.bool b)
  | number n => number? n
  | string glyphs => (Glyph.decode glyphs).map .str
  | array items => (values? [] items).map .arr
  | object members => (memberValues? [] members).map fun ms => .obj (Json.settle ms)

def values? (done : List Json) : List Raw → Option (List Json)
  | [] => some done.reverse
  | r :: rest =>
    match r.value? with
    | some v => values? (v :: done) rest
    | none => none

def memberValues? (done : List (String × Json)) :
    List (List Glyph × Raw) → Option (List (String × Json))
  | [] => some done.reverse
  | (key, r) :: rest =>
    match Glyph.decode key, r.value? with
    | some k, some v => memberValues? ((k, v) :: done) rest
    | _, _ => none

end

end Raw

/-- Floats in JSON show their power of ten below `10 ^ -5` and from `10 ^ 16` on. -/
def Json.realLayout : Decimal.Layout := ⟨-5, 15⟩

mutual

/-- The written form of a value. -/
def Json.raw : Json → Raw
  | .null => .null
  | .bool b => .bool b
  | .int z => .number (.ofInt z)
  | .real x => .number (Json.realLayout.ofBinary x)
  | .str s => .string (Glyph.encode s)
  | .arr items => .array (Json.raws [] items)
  | .obj members => .object (Json.rawMembers [] members)

def Json.raws (done : List Raw) : List Json → List Raw
  | [] => done.reverse
  | v :: rest => Json.raws (v.raw :: done) rest

def Json.rawMembers (done : List (List Glyph × Raw)) :
    List (String × Json) → List (List Glyph × Raw)
  | [] => done.reverse
  | (k, v) :: rest => Json.rawMembers ((Glyph.encode k, v.raw) :: done) rest

end

end FieldFilter
