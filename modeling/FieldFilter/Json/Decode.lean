import FieldFilter.Json.Raw

/-!
Reading records. A record is written as an object with named members, of which unknown ones are
passed over and known ones occur at most once, or as the array of its members in their order.
-/

namespace FieldFilter.Raw

def text? : Raw → Option String
  | string glyphs => Glyph.decode glyphs
  | _ => none

/-- An unsigned 64-bit word. -/
def word? : Raw → Option Nat
  | number n =>
    if n.isWhole && !n.negative && n.wholeValue < Decimal.wordSize then some n.wholeValue else none
  | _ => none

def float? : Raw → Option Float
  | number n => n.binary?.map Decimal.Binary.toFloat
  | _ => none

/-- A value that may be absent or null. -/
def optional? (read : Raw → Option α) : Option Raw → Option (Option α)
  | none | some null => some none
  | some r => (read r).map some

/-- A case of an enumeration: its name, or the object with that name for its only key and null for
its value. -/
def case? (ofName? : String → Option α) : Raw → Option α
  | string glyphs => (Glyph.decode glyphs).bind ofName?
  | object [(key, null)] => (Glyph.decode key).bind ofName?
  | _ => none

/-- Puts a member in the place of its name, if that is empty. -/
def place? (name : String) (value : Raw) :
    (names : List String) → List (Option Raw) → Option (List (Option Raw))
  | n :: names, slot :: slots =>
    if n = name then if slot.isNone then some (some value :: slots) else none
    else (place? name value names slots).map (slot :: ·)
  | _, slots => some slots

def placeAll? (names : List String) (slots : List (Option Raw)) :
    List (List Glyph × Raw) → Option (List (Option Raw))
  | [] => some slots
  | (key, value) :: rest =>
    match (Glyph.decode key).bind fun k => place? k value names slots with
    | some slots => placeAll? names slots rest
    | none => none

/-- The members of a record with the given names. An array may leave out members at its end, but
not the first `required` ones. -/
def record? (names : List String) (required : Nat) : Raw → Option (List (Option Raw))
  | object members => placeAll? names (names.map fun _ => none) members
  | array items =>
    if required ≤ items.length ∧ items.length ≤ names.length then
      some (items.map some ++ List.replicate (names.length - items.length) none)
    else none
  | _ => none

end FieldFilter.Raw
