/-!
The fixed limits of filters and of the editor.
-/

namespace FieldFilter.Limits

/-- The most groups that may be nested in an accepted filter. -/
def filterNesting : Nat := 32

/-- The greatest size of a filter text, in bytes. -/
def textBytes : Nat := 1048576

/-- The most characters of a piece of input that a message shows. -/
def shownLength : Nat := 120

/-- The most groups that an editor may let a user nest, the root included. -/
def editorNesting : Nat := 16

/-- The most nodes that a tree may reach by adding. -/
def treeNodes : Nat := 10000

/-- Where the limits come from. -/
def source : String := "Generated from config/default.toml"

end FieldFilter.Limits
