/-!
TOML documents. A document is a table; a table remembers how it came about, since that decides what
may still be added to it: a table with a header is finished by its own lines, a table that a header
only implied may get a header of its own, a table made by dotted keys grows by dotted keys alone,
and an inline table never grows.
-/

namespace FieldFilter.Toml

inductive Origin
  | header
  | implied
  | dotted
  | inline
  deriving DecidableEq, Repr

inductive Node
  | string (s : String)
  | integer (z : Int)
  /-- a float as it is written -/
  | float (text : String)
  | boolean (b : Bool)
  /-- a date, a time or both, as written -/
  | dateTime (text : String)
  | array (items : List Node)
  | table (origin : Origin) (members : List (String × Node))
  /-- an array of tables, the last row first -/
  | rows (rows : List (List (String × Node)))
  deriving Repr, Inhabited

/-- What a table holds. -/
abbrev Members := List (String × Node)

namespace Members

/-- Puts a node in place of the one with its key, or at the end. -/
def put (key : String) (node : Node) : Members → Members
  | [] => [(key, node)]
  | (k, old) :: rest => if k = key then (k, node) :: rest else (k, old) :: put key node rest

/-- Adds a node under a key that is not in use. -/
def add? (key : String) (node : Node) (members : Members) : Option Members :=
  match members.lookup key with
  | some _ => none
  | none => some (put key node members)

/-- Changes the table at the end of a path of headers. Tables on the way that are not there yet are
implied; a row of an array of tables is its last one. -/
def within? (change : Members → Option Members) : (path : List String) → Members → Option Members
  | [], members => change members
  | key :: path, members =>
    match members.lookup key with
    | none => do
      let inner ← within? change path []
      some (put key (.table .implied inner) members)
    | some (.table .inline _) => none
    | some (.table origin inner) => do
      let inner ← within? change path inner
      some (put key (.table origin inner) members)
    | some (.rows (last :: earlier)) => do
      let last ← within? change path last
      some (put key (.rows (last :: earlier)) members)
    | some _ => none

/-- Adds a node under a dotted key. The key's own table must have been made by dotted keys. -/
def addDotted? (key : String) (node : Node) : (path : List String) → Members → Option Members
  | [], members => add? key node members
  | k :: path, members =>
    match members.lookup k with
    | none => do
      let inner ← addDotted? key node path []
      some (put k (.table .dotted inner) members)
    | some (.table .dotted inner) => do
      let inner ← addDotted? key node path inner
      some (put k (.table .dotted inner) members)
    | some (.table .implied inner) =>
      if path.isEmpty then none
      else do
        let inner ← addDotted? key node path inner
        some (put k (.table .implied inner) members)
    | some (.rows (last :: earlier)) =>
      if path.isEmpty then none
      else do
        let last ← addDotted? key node path last
        some (put k (.rows (last :: earlier)) members)
    | some _ => none

/-- Starts the table of a header. -/
def openTable? (key : String) (members : Members) : Option Members :=
  match members.lookup key with
  | none => some (put key (.table .header []) members)
  | some (.table .implied inner) => some (put key (.table .header inner) members)
  | some _ => none

/-- Starts a row of an array of tables. -/
def openRow? (key : String) (members : Members) : Option Members :=
  match members.lookup key with
  | none => some (put key (.rows [[]]) members)
  | some (.rows rows) => some (put key (.rows ([] :: rows)) members)
  | some _ => none

end Members

end FieldFilter.Toml
