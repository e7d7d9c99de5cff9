import FieldFilter.Event
import FieldFilter.Preferences.Basic
import FieldFilter.Toml.Reader

/-!
Preferences from a TOML document. Keys that are not there keep their defaults, and other keys are
passed over.
-/

namespace FieldFilter.Preferences

def nat? : Toml.Node → Option Nat
  | .integer z => if 0 ≤ z then some z.toNat else none
  | _ => none

def bool? : Toml.Node → Option Bool
  | .boolean b => some b
  | _ => none

/-- The value under a key, or the default if there is none. -/
def setting? (read? : Toml.Node → Option α) (default : α) (key : String)
    (members : Toml.Members) : Option α :=
  match members.lookup key with
  | none => some default
  | some node => read? node

/-- The preferences that a document sets, whether or not they can be used. -/
def ofDocument? (defaults : Preferences) (text : String) : Option Preferences := do
  let members ← Toml.read? text
  some {
    maxNesting := ← setting? nat? defaults.maxNesting "max_nesting_depth" members
    prettyJson := ← setting? bool? defaults.prettyJson "pretty_json" members
    logMutations := ← setting? bool? defaults.logMutations "log_mutations" members }

/-- Reads preferences. -/
def read (defaults : Preferences) (text : String) : Except PreferencesError Preferences :=
  match ofDocument? defaults text with
  | none => .error .malformed
  | some p =>
    match p.check with
    | .ok () => .ok p
    | .error e => .error e

/-- Only a document that cannot be read is reported. -/
def readEvents (defaults : Preferences) (text : String) : List Event :=
  if (ofDocument? defaults text).isNone then [.preferencesRejected] else []

end FieldFilter.Preferences
