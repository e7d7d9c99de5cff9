import FieldFilter.Code
import FieldFilter.Decimal.Digits
import FieldFilter.Limits
import FieldFilter.Text

/-!
Preferences of an editor. What is not set comes from three environment variables, and what those do
not say readably from fixed defaults.
-/

namespace FieldFilter

structure Preferences where
  /-- the most groups that a user may nest, the root included -/
  maxNesting : Nat
  /-- whether the JSON tab starts with a pretty text -/
  prettyJson : Bool
  /-- whether every change of the outline is reported -/
  logMutations : Bool
  deriving DecidableEq, Repr

/-- The values of the environment variables that set defaults. -/
structure Environment where
  maxNesting : Option String
  prettyJson : Option String
  logMutations : Option String
  deriving Repr

namespace Environment

def maxNestingName : String := "FILTER_EDITOR_MAX_NESTING_DEPTH"

def prettyJsonName : String := "FILTER_EDITOR_PRETTY_JSON"

def logMutationsName : String := "FILTER_EDITOR_LOG_MUTATIONS"

/-- The environment with the given variables. -/
def ofLookup (lookup : String → Option String) : Environment :=
  ⟨lookup maxNestingName, lookup prettyJsonName, lookup logMutationsName⟩

end Environment

namespace Preferences

/-- Reads a switch: any of eight words, in any case of its letters and with blanks around it. -/
def switch? (s : String) : Option Bool :=
  let word := String.ofList ((Text.trimmed s).map Char.toLower)
  if ["true", "1", "yes", "on"].contains word then some true
  else if ["false", "0", "no", "off"].contains word then some false
  else none

/-- Reads an unsigned 64-bit word: digits, perhaps after a plus sign. -/
def word? (s : String) : Option Nat :=
  let row := match s.toList with
    | '+' :: rest => rest
    | row => row
  if row.isEmpty || !row.all Char.isDigit then none
  else
    let n := Decimal.value row
    if n < Decimal.wordSize then some n else none

end Preferences

/-- Why preferences cannot be used. -/
inductive PreferencesError
  /-- a text that is no table of preferences, without the words of its reader -/
  | malformed
  | outOfRange (value : Nat)
  deriving DecidableEq, Repr

namespace PreferencesError

def name : PreferencesError → String
  | malformed => "Toml"
  | outOfRange _ => "OutOfRange"

def code : PreferencesError → Code := fun _ => .badConfiguration

def message : PreferencesError → String
  | malformed => "Invalid preferences TOML"
  | outOfRange value =>
    s!"Preference 'max_nesting_depth' is {value}, allowed range is 1..={Limits.editorNesting}"

end PreferencesError

namespace Preferences

/-- The defaults that an environment gives; a nesting limit out of range is brought into it. -/
def ofEnvironment (env : Environment) : Preferences where
  maxNesting :=
    max 1 (min Limits.editorNesting ((env.maxNesting.bind word?).getD Limits.editorNesting))
  prettyJson := (env.prettyJson.bind switch?).getD true
  logMutations := (env.logMutations.bind switch?).getD false

def check (p : Preferences) : Except PreferencesError Unit :=
  if p.maxNesting = 0 ∨ Limits.editorNesting < p.maxNesting then .error (.outOfRange p.maxNesting)
  else .ok ()

/-- The defaults can always be used. -/
theorem check_ofEnvironment (env : Environment) : (ofEnvironment env).check = .ok () := by
  have h : Limits.editorNesting = 16 := rfl
  simp only [check, ofEnvironment, h]
  rw [if_neg]
  omega

end Preferences

end FieldFilter
