import FieldFilter.Session.Edit

/-!
Loading filters and changing tabs. A text goes into the outline only if it is a filter; a text that
is none stays on the JSON tab, to be mended there.
-/

namespace FieldFilter.Session

/-- The constructor tab over an outline, with no text. -/
def construct (s : Session) (root : Group) : Outcome Bool :=
  { s.replaceRoot root with tab := .constructor, text := "" }.revalidate

/-- Replaces the filter by a text. A text that is no filter is put on the JSON tab, and the outline
stays as it is. -/
def load (s : Session) (text : String) : Outcome Bool :=
  if Text.isBlank text then (s.construct s.freshRoot).giving true
  else
    let events := Event.ofCheckText s.fields text
    match Validation.checkText s.fields text with
    | .error fault =>
      ⟨false, { s with tab := .json, text := text, verdict := .error fault },
        events ++ [.loadFailed fault]⟩
    | .ok e =>
      let reading := Reading.ofExpression e s.next
      let o := { s with next := reading.next }.construct reading.root
      ⟨true, o.session, events ++ reading.events ++ o.events ++
        [.loaded o.session.root.id o.session.root.size]⟩

/-- The text that the JSON tab starts with. -/
def rendered (s : Session) : String :=
  match s.root.expression? with
  | none => ""
  | some e => if s.preferences.prettyJson then e.pretty else e.compact

/-- Opens the JSON tab on the text of the outline. -/
def openJson (s : Session) : Outcome Bool :=
  ({ s with tab := .json, text := s.rendered }.revalidate).giving true

/-- Opens the constructor tab on the outline of the text, if the text is a filter. -/
def openConstructor (s : Session) : Outcome Bool :=
  if Text.isBlank s.text then (s.construct s.freshRoot).giving true
  else
    let events := Event.ofCheckText s.fields s.text
    match Validation.checkText s.fields s.text with
    | .error fault =>
      ⟨false, { s with verdict := .error fault }, events ++ [.switchRefused fault]⟩
    | .ok e =>
      let reading := Reading.ofExpression e s.next
      (({ s with next := reading.next }.construct reading.root).giving true).after
        (events ++ reading.events)

/-- Opens a tab; the result says whether another tab is open now. -/
def setTab (s : Session) (tab : Tab) : Outcome Bool :=
  if tab = s.tab then s.refuse false []
  else
    let o := match tab with
      | .json => s.openJson
      | .constructor => s.openConstructor
    if o.result then
      { o with events := o.events ++ [.switched tab o.session.isValid] }
    else o

/-- Changes the text of the JSON tab. -/
def setText (s : Session) (text : String) : Outcome Unit :=
  ({ s with text := text }.revalidate).giving ()

/-- A new session, on the filter given by a text or on the filter that keeps everything. -/
def start (fields : List Field) (preferences : Preferences) (initial : Option String) :
    Outcome Unit :=
  let blank : Session :=
    ⟨fields, preferences, 2, .empty 1 .all, .constructor, "", .ok none, none⟩
  match initial with
  | none => blank.revalidate.giving ()
  | some text =>
    if Text.isBlank text then blank.revalidate.giving ()
    else (blank.load text).giving ()

end FieldFilter.Session
