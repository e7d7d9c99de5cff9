import FieldFilter.Drop.Basic
import FieldFilter.Json.Decode

/-!
Drops as the view reports them, in JSON.
-/

namespace FieldFilter

def Rect.ofRaw? (r : Raw) : Option Rect :=
  match r.record? ["top", "left", "width", "height"] 4 with
  | some [some top, some left, some width, some height] => do
    some ⟨← top.float?, ← left.float?, ← width.float?, ← height.float?⟩
  | _ => none

def Dragged.ofRaw? (r : Raw) : Option Dragged :=
  match r.record? ["id", "item_type", "group_id"] 3 with
  | some [some id, some kind, some group] => do
    some ⟨← id.word?, ← kind.case? Kind.ofName?, ← group.word?⟩
  | _ => none

def Touched.ofRaw? (r : Raw) : Option Touched :=
  match r.record? ["id", "item_type", "group_id", "rect"] 4 with
  | some [some id, some kind, some group, some rect] => do
    some ⟨← id.word?, ← kind.case? Kind.ofName?, ← group.word?, ← Rect.ofRaw? rect⟩
  | _ => none

/-- The touched items; without a report there are none. -/
def Touched.allOfRaw? : Option Raw → Option (List Touched)
  | none => some []
  | some (.array items) => items.mapM Touched.ofRaw?
  | some _ => none

def Drop.ofRaw? (r : Raw) : Option Drop :=
  match r.record? ["active", "active_rect", "over", "collisions"] 3 with
  | some [some dragged, rect, target, touched] => do
    some ⟨← Dragged.ofRaw? dragged, ← Raw.optional? Rect.ofRaw? rect,
      ← Raw.optional? Touched.ofRaw? target, ← Touched.allOfRaw? touched⟩
  | _ => none

end FieldFilter
