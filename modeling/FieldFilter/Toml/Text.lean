import FieldFilter.Text

/-!
Strings of TOML. Basic strings have escapes, literal strings have none; each kind has a form of one
line and a form of several lines, in which up to two quotes may stand together. Lines end with a
line feed alone: pairs of a carriage return and a line feed are taken for one beforehand.
-/

namespace FieldFilter.Toml

/-- What is left of a text after a part of it was read. -/
abbrev Rest := List Char

def isBlank (c : Char) : Bool := c = ' ' || c = '\t'

/-- Characters of comments and literal strings: no control characters but the tab. -/
def isText (c : Char) : Bool := c = '\t' || (0x20 ≤ c.toNat && c.toNat ≠ 0x7F)

/-- The character with a hexadecimal number. -/
def unicode? (row : List Char) : Option Char := do
  let code ← row.foldlM (fun n c => (Text.hexDigit? c).map (16 * n + ·)) 0
  if code < 0xD800 || (0xE000 ≤ code && code < 0x110000) then some (Char.ofNat code) else none

/-- The character meant by a backslash and a letter. -/
def escape? : Char → Option Char
  | 'b' => some '\x08'
  | 't' => some '\t'
  | 'n' => some '\n'
  | 'f' => some '\x0c'
  | 'r' => some '\r'
  | '"' => some '"'
  | '\\' => some '\\'
  | _ => none

/-- A basic string of one line, after its opening quote. -/
def basic? (done : List Char) : List Char → Option (String × Rest)
  | [] => none
  | '"' :: rest => some (String.ofList done.reverse, rest)
  | '\\' :: 'u' :: a :: b :: c :: d :: rest =>
    match unicode? [a, b, c, d] with
    | some ch => basic? (ch :: done) rest
    | none => none
  | '\\' :: 'U' :: a :: b :: c :: d :: e :: f :: g :: h :: rest =>
    match unicode? [a, b, c, d, e, f, g, h] with
    | some ch => basic? (ch :: done) rest
    | none => none
  | '\\' :: c :: rest =>
    match escape? c with
    | some ch => basic? (ch :: done) rest
    | none => none
  | c :: rest => if isText c then basic? (c :: done) rest else none

/-- A literal string of one line, after its opening quote. -/
def literal? (done : List Char) : List Char → Option (String × Rest)
  | [] => none
  | '\'' :: rest => some (String.ofList done.reverse, rest)
  | c :: rest => if isText c then literal? (c :: done) rest else none

/-- Takes up to two quotes that stand before the closing ones. -/
def closing (quote : Char) (done : List Char) : List Char → String × Rest
  | a :: b :: rest =>
    if a = quote && b = quote then (String.ofList (quote :: quote :: done).reverse, rest)
    else if a = quote then (String.ofList (quote :: done).reverse, b :: rest)
    else (String.ofList done.reverse, a :: b :: rest)
  | [a] =>
    if a = quote then (String.ofList (quote :: done).reverse, [])
    else (String.ofList done.reverse, [a])
  | [] => (String.ofList done.reverse, [])

/-- How far a basic string of several lines is into a line break that a backslash leaves out. -/
inductive Break
  | none
  /-- the line has to end -/
  | pending
  /-- blanks and line ends are passed over -/
  | passing
  deriving DecidableEq, Repr

/-- A basic string of several lines, after its opening quotes. -/
def basicLines? (gap : Break) (done : List Char) : List Char → Option (String × Rest)
  | [] => none
  | c :: rest =>
    if gap = .pending then
      if isBlank c then basicLines? .pending done rest
      else if c = '\n' then basicLines? .passing done rest
      else none
    else if gap = .passing && (isBlank c || c = '\n') then basicLines? .passing done rest
    else
      match c, rest with
      | '"', '"' :: '"' :: rest => some (closing '"' done rest)
      | '\\', 'u' :: a :: b :: c :: d :: rest =>
        match unicode? [a, b, c, d] with
        | some ch => basicLines? .none (ch :: done) rest
        | none => none
      | '\\', 'U' :: a :: b :: c :: d :: e :: f :: g :: h :: rest =>
        match unicode? [a, b, c, d, e, f, g, h] with
        | some ch => basicLines? .none (ch :: done) rest
        | none => none
      | '\\', c :: rest =>
        if c = '\n' then basicLines? .passing done rest
        else if isBlank c then basicLines? .pending done rest
        else
          match escape? c with
          | some ch => basicLines? .none (ch :: done) rest
          | none => none
      | '\\', [] => none
      | c, rest => if isText c || c = '\n' then basicLines? .none (c :: done) rest else none

/-- A literal string of several lines, after its opening quotes. -/
def literalLines? (done : List Char) : List Char → Option (String × Rest)
  | [] => none
  | '\'' :: '\'' :: '\'' :: rest => some (closing '\'' done rest)
  | c :: rest => if isText c || c = '\n' then literalLines? (c :: done) rest else none

/-- Passes over a line end that stands right after opening quotes. -/
def afterOpening : List Char → List Char
  | '\n' :: rest => rest
  | rest => rest

end FieldFilter.Toml
