import FieldFilter.Drop.Decode
import FieldFilter.Preferences.Document
import FieldFilter.Proofs.Outline.Agreement
import FieldFilter.Proofs.Outline.Numbering
import FieldFilter.Proofs.Session.Additions
import FieldFilter.Proofs.Session.Editing
import FieldFilter.Proofs.Session.Idle
import FieldFilter.Proofs.Session.Refusals
import FieldFilter.Proofs.Session.Reload
import FieldFilter.Proofs.Session.ScrollTarget
import FieldFilter.Proofs.Session.Strays
import FieldFilter.Proofs.Session.Trees
import FieldFilter.Proofs.Session.Undo
import FieldFilter.Proofs.Validation.Excerpts
import FieldFilter.Proofs.Validation.Faults
import FieldFilter.Proofs.Validation.Truth
