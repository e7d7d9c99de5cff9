import FieldFilter.Json.Raw

/-!
JSON texts of values. The compact style has no blanks; the pretty style puts every element and
member on a line of its own, two spaces deeper than its container.
-/

namespace FieldFilter

inductive Style
  | compact
  | pretty
  deriving DecidableEq, Repr

namespace Raw

/-- Adds characters to a text. -/
def push (out : String) (cs : List Char) : String := cs.foldl String.push out

/-- Starts a line at the given depth, in the pretty style. -/
def newLine (style : Style) (depth : Nat) (out : String) : String :=
  match style with
  | .compact => out
  | .pretty => push (out.push '\n') (List.replicate (2 * depth) ' ')

def writeString (glyphs : List Glyph) (out : String) : String :=
  (glyphs.foldl (fun out g => push out g.chars) (out.push '"')).push '"'

def writeKey (style : Style) (key : List Glyph) (out : String) : String :=
  match style with
  | .compact => (writeString key out).push ':'
  | .pretty => ((writeString key out).push ':').push ' '

mutual

/-- Adds the text of a value to `out`. -/
def write (style : Style) (depth : Nat) (r : Raw) (out : String) : String :=
  match r with
  | null => push out ['n', 'u', 'l', 'l']
  | bool true => push out ['t', 'r', 'u', 'e']
  | bool false => push out ['f', 'a', 'l', 's', 'e']
  | number n => push out n.chars
  | string glyphs => writeString glyphs out
  | array [] => push out ['[', ']']
  | array (first :: rest) =>
    let out := write style (depth + 1) first (newLine style (depth + 1) (out.push '['))
    (newLine style depth (writeRest style (depth + 1) rest out)).push ']'
  | object [] => push out ['{', '}']
  | object ((key, first) :: rest) =>
    let out := writeKey style key (newLine style (depth + 1) (out.push '{'))
    let out := write style (depth + 1) first out
    (newLine style depth (writeMembers style (depth + 1) rest out)).push '}'

/-- Adds the elements after the first. -/
def writeRest (style : Style) (depth : Nat) (rs : List Raw) (out : String) : String :=
  match rs with
  | [] => out
  | r :: rest =>
    writeRest style depth rest (write style depth r (newLine style depth (out.push ',')))

/-- Adds the members after the first. -/
def writeMembers (style : Style) (depth : Nat) (ms : List (List Glyph × Raw)) (out : String) :
    String :=
  match ms with
  | [] => out
  | (key, r) :: rest =>
    writeMembers style depth rest
      (write style depth r (writeKey style key (newLine style depth (out.push ','))))

end

def text (style : Style) (r : Raw) : String := r.write style 0 ""

end Raw

namespace Json

/-- The text of a value without blanks. -/
def compact (v : Json) : String := v.raw.text .compact

/-- The text of a value over several lines. -/
def pretty (v : Json) : String := v.raw.text .pretty

end Json

end FieldFilter
