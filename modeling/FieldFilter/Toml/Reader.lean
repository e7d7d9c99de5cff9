import FieldFilter.Toml.Scalar

/-!
Reading TOML. A document is read line by line: blank lines, comments, headers, and keys with their
values. Main entry: `Toml.read?`, which gives the members of the document's root table.
-/

namespace FieldFilter.Toml

/-- Keys have fewer parts than this, and containers nest less deep. -/
def nestingLimit : Nat := 80

/-- A text in which every line ends with a line feed alone, in reverse. -/
def unixLines (done : List Char) : List Char → List Char
  | [] => done
  | '\r' :: '\n' :: rest => unixLines ('\n' :: done) rest
  | c :: rest => unixLines (c :: done) rest

def skipBlanks (cs : List Char) : List Char := cs.dropWhile isBlank

/-- Passes over a comment, if one starts here. -/
def skipComment : List Char → List Char
  | '#' :: rest => rest.dropWhile isText
  | cs => cs

/-- Passes over blanks, comments and line ends. -/
def skipLines (inComment : Bool) : List Char → List Char
  | [] => []
  | c :: rest =>
    if inComment && isText c then skipLines true rest
    else if isBlank c || c = '\n' then skipLines false rest
    else if c = '#' && !inComment then skipLines true rest
    else c :: rest

/-- Reads the end of a line, with a comment before it if there is one. -/
def lineEnd? (cs : List Char) : Option Rest :=
  match skipComment (skipBlanks cs) with
  | [] => some []
  | '\n' :: rest => some rest
  | _ => none

/-- Reads one character. -/
def sign? (c : Char) : List Char → Option Rest
  | d :: rest => if d = c then some rest else none
  | [] => none

/-! ## Keys -/

def isBareKeyChar (c : Char) : Bool := c.isAlphanum || c = '-' || c = '_'

/-- Reads one part of a key. -/
def keyPart? (cs : List Char) : Option (String × Rest) :=
  match cs with
  | '"' :: rest => basic? [] rest
  | '\'' :: rest => literal? [] rest
  | cs =>
    match cs.span isBareKeyChar with
    | ([], _) => none
    | (row, rest) => some (String.ofList row, rest)

/-- Reads the parts of a key, at most `fuel` of them, with the blanks around them. -/
def keyParts? : (fuel : Nat) → List Char → Option (List String × Rest)
  | 0, _ => none
  | fuel + 1, cs => do
    let (part, rest) ← keyPart? (skipBlanks cs)
    match skipBlanks rest with
    | '.' :: rest => do
      let (parts, rest) ← keyParts? fuel rest
      some (part :: parts, rest)
    | rest => some ([part], rest)

/-- Reads a key: the path to its table, and its last part. -/
def key? (cs : List Char) : Option (List String × String × Rest) := do
  let (parts, rest) ← keyParts? (nestingLimit - 1) cs
  let last ← parts.getLast?
  some (parts.dropLast, last, rest)

/-! ## Values -/

/-- Reads the elements of an array after its bracket, with the reader of one element; `fuel` bounds
their number. -/
def elements? (element? : List Char → Option (Node × Rest)) :
    (fuel : Nat) → (done : List Node) → List Char → Option (Node × Rest)
  | 0, _, _ => none
  | fuel + 1, done, cs =>
    match skipLines false cs with
    | ']' :: rest => some (.array done.reverse, rest)
    | cs =>
      match element? cs with
      | none => none
      | some (node, rest) =>
        match skipLines false rest with
        | ',' :: rest => elements? element? fuel (node :: done) rest
        | ']' :: rest => some (.array (node :: done).reverse, rest)
        | _ => none

/-- Reads the members of an inline table after its brace, with the reader of one value; `fuel`
bounds their number. -/
def members? (value? : List Char → Option (Node × Rest)) :
    (fuel : Nat) → Members → List Char → Option (Node × Rest)
  | 0, _, _ => none
  | fuel + 1, members, cs =>
    match key? cs with
    | none => none
    | some (path, key, rest) =>
      match (sign? '=' rest).bind fun rest => value? (skipBlanks rest) with
      | none => none
      | some (node, rest) =>
        match members.addDotted? key node path, skipBlanks rest with
        | some members, ',' :: rest => members? value? fuel members rest
        | some members, '}' :: rest => some (.table .inline members, rest)
        | _, _ => none

/-- Reads a value in which at most `depth` containers are nested. -/
def value? : (depth : Nat) → List Char → Option (Node × Rest)
  | depth, cs =>
    match cs with
    | '"' :: '"' :: '"' :: rest => text (basicLines? .none [] (afterOpening rest))
    | '"' :: rest => text (basic? [] rest)
    | '\'' :: '\'' :: '\'' :: rest => text (literalLines? [] (afterOpening rest))
    | '\'' :: rest => text (literal? [] rest)
    | '[' :: rest =>
      match depth with
      | 0 => none
      | depth + 1 => elements? (value? depth) (rest.length + 1) [] rest
    | '{' :: rest =>
      match depth with
      | 0 => none
      | depth + 1 =>
        match skipBlanks rest with
        | '}' :: rest => some (.table .inline [], rest)
        | rest => members? (value? depth) (rest.length + 1) [] rest
    | cs => scalar? cs
where
  text : Option (String × Rest) → Option (Node × Rest)
    | some (s, rest) => some (.string s, rest)
    | none => none

/-! ## Lines -/

/-- A document as far as it has been read: its root table, and the path of the last header. -/
structure Document where
  members : Members
  path : List String
  deriving Repr

/-- Reads the header of a table, after its bracket. -/
def tableHeader? (doc : Document) (cs : List Char) : Option (Document × Rest) := do
  let (path, key, rest) ← key? cs
  let rest ← lineEnd? (← sign? ']' rest)
  let members ← doc.members.within? (Members.openTable? key) path
  some (⟨members, path ++ [key]⟩, rest)

/-- Reads the header of a row of an array of tables, after its two brackets. -/
def rowHeader? (doc : Document) (cs : List Char) : Option (Document × Rest) := do
  let (path, key, rest) ← key? cs
  let rest ← lineEnd? (← sign? ']' (← sign? ']' rest))
  let members ← doc.members.within? (Members.openRow? key) path
  some (⟨members, path ++ [key]⟩, rest)

/-- Reads a key and its value into the table of the last header. -/
def keyValue? (doc : Document) (cs : List Char) : Option (Document × Rest) := do
  let (path, key, rest) ← key? cs
  let rest ← sign? '=' rest
  let (node, rest) ← value? (nestingLimit - 1) (skipBlanks rest)
  let rest ← lineEnd? rest
  let members ← doc.members.within? (Members.addDotted? key node path) doc.path
  some (⟨members, doc.path⟩, rest)

/-- Reads one line, from its first character that is not blank. -/
def line? (doc : Document) (cs : List Char) : Option (Document × Rest) :=
  match cs with
  | '\n' :: rest => some (doc, rest)
  | '#' :: _ => (lineEnd? cs).map fun rest => (doc, rest)
  | '[' :: '[' :: rest => rowHeader? doc rest
  | '[' :: rest => tableHeader? doc rest
  | cs => keyValue? doc cs

/-- Reads at most `fuel` lines. -/
def lines? : (fuel : Nat) → Document → List Char → Option Members
  | 0, _, _ => none
  | fuel + 1, doc, cs =>
    match skipBlanks cs with
    | [] => some doc.members
    | cs =>
      match line? doc cs with
      | some (doc, rest) => lines? fuel doc rest
      | none => none

/-- The root table of a document, which may start with a byte order mark. -/
def read? (text : String) : Option Members :=
  let cs := (unixLines [] text.toList).reverse
  let cs := match cs with
    | '\uFEFF' :: rest => rest
    | cs => cs
  lines? (cs.length + 1) ⟨[], []⟩ cs

end FieldFilter.Toml
