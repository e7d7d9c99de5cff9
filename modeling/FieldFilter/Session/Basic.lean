import FieldFilter.Event
import FieldFilter.Outline.Reading
import FieldFilter.Outline.Search
import FieldFilter.Outline.Written
import FieldFilter.Preferences.Basic

/-!
Sessions. A session edits one filter, in one of two views: the outline or a text. One of them
counts: the text while the JSON tab is open and the text is not blank, otherwise the outline. The
verdict of the view that counts is kept with the session; `Session.judge` is what it says.
-/

namespace FieldFilter

/-- What the view that counts says: the text of the filter, none for the filter that keeps
everything, or a fault. -/
abbrev Verdict := Except Fault (Option String)

structure Session where
  fields : List Field
  preferences : Preferences
  /-- the next id to draw -/
  next : NodeId
  root : Group
  tab : Tab
  /-- the text of the JSON tab -/
  text : String
  verdict : Verdict
  /-- a node that the view should bring into sight -/
  scrollTarget : Option NodeId
  deriving Repr

/-- What a call on a session gives back, the session after it, and what is reported. -/
structure Outcome (α : Type) where
  result : α
  session : Session
  events : List Event
  deriving Repr

namespace Outcome

/-- The same with an earlier report. -/
def after (events : List Event) (o : Outcome α) : Outcome α :=
  { o with events := events ++ o.events }

/-- The same with the result put another way. -/
def map (f : α → β) (o : Outcome α) : Outcome β := ⟨f o.result, o.session, o.events⟩

/-- The same with another result. -/
def giving (b : β) (o : Outcome α) : Outcome β := ⟨b, o.session, o.events⟩

end Outcome

namespace Session

def isValid (s : Session) : Bool := s.verdict.isOk

/-- The fault of an invalid session. -/
def fault? (s : Session) : Option Fault :=
  match s.verdict with
  | .ok _ => none
  | .error f => some f

/-- Whether the text counts and not the outline. -/
def textCounts (s : Session) : Bool := s.tab = .json && !Text.isBlank s.text

/-- The verdict on an outline, and the events of reaching it. -/
def judgeOutline (fields : List Field) (root : Group) : Verdict × List Event :=
  match root.expression? with
  | none => (.ok none, [])
  | some e => ((Validation.check fields e).map fun _ => some e.compact, Event.ofCheck fields e)

/-- The verdict on a text: an accepted text is brought into its plainest form by way of its
outline. -/
def judgeText (fields : List Field) (text : String) : Verdict × List Event :=
  let events := Event.ofCheckText fields text
  match Validation.checkText fields text with
  | .error fault => (.error fault, events)
  | .ok e =>
    let reading := Reading.ofExpression e 1
    (.ok (reading.root.expression?.map Json.compact), events ++ reading.events)

def judgeLogged (s : Session) : Verdict × List Event :=
  if s.textCounts then judgeText s.fields s.text else judgeOutline s.fields s.root

/-- The verdict of the view that counts. -/
def judge (s : Session) : Verdict := s.judgeLogged.1

/-- Judges the view that counts and keeps the verdict. -/
def revalidate (s : Session) : Outcome Bool :=
  let (verdict, events) := s.judgeLogged
  let s := { s with verdict := verdict }
  match verdict with
  | .ok _ => ⟨true, s, events⟩
  | .error fault => ⟨false, s, events ++ [.stateInvalid s.tab fault]⟩

/-- The end of every change of the outline. -/
def settle (s : Session) (operation : Operation) (id : NodeId) : Outcome Bool :=
  s.revalidate.after
    (if s.preferences.logMutations then [.mutated operation id s.root.size] else [])

/-- Puts another outline in place; its root takes the id of the old root. -/
def replaceRoot (s : Session) (root : Group) : Session :=
  { s with root := { root with id := s.root.id }, scrollTarget := none }

/-- An empty outline under the id of the root. -/
def freshRoot (s : Session) : Group := .empty s.root.id .all

/-- The node to bring into sight, which is asked for once. -/
def takeScrollTarget (s : Session) : Outcome (Option NodeId) :=
  ⟨s.scrollTarget, { s with scrollTarget := none }, []⟩

/-! ## Output -/

/-- The text of the filter. -/
def output (s : Session) : Except Refusal (Option String) :=
  match s.verdict with
  | .ok text => .ok text
  | .error fault => .error (.invalid fault)

def outputEvents (s : Session) : List Event :=
  match s.output with
  | .ok _ => []
  | .error r => [.requestedWhileInvalid r]

/-- The expression of the filter, read from its text. -/
def outputExpression (s : Session) : Except Refusal (Option Json) :=
  match s.output with
  | .error r => .error r
  | .ok none => .ok none
  | .ok (some text) =>
    match Json.read? text with
    | some e => .ok (some e)
    | none => .error .unreadable

end Session

end FieldFilter
