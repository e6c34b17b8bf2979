import Vendoring.Decision
import Vendoring.Diff
import Vendoring.Json.Document
/-!
# What a run tells

A run tells its decisions, the difference it makes to each file, and notes, in the order in which
they happen.  `Event.text` is how a log file holds them: a block for a decision, a block for a
difference, a line for a note.
-/
namespace Vendoring

inductive Event where
  | decision (e : Entry)
  | difference (file : Path) (before after : String)
  | note (text : String)
deriving DecidableEq, Repr

namespace Entry

def toJson (e : Entry) : Except String Json := do
  let file ← Json.path e.file
  .ok (.record [("file", file), ("line", .number e.line), ("original", .text e.before),
    ("replacement", Json.texts e.replacement), ("tag", .text e.tag.label)])

/-- The lines of a decision's block that say what stands there now. -/
def outcomeLines (e : Entry) : List String :=
  if e.tag.passesThrough || e.replacement.isEmpty then ["  NEW: (unchanged)"]
  else e.replacement.map ("  NEW: " ++ ·)

def block (e : Entry) : String :=
  String.join ((([s!"FILE: {e.file.display}:{e.line}", s!"  TYPE: {e.tag.label}",
    "  ORIGINAL: " ++ e.before] ++ e.outcomeLines)).map (· ++ "\n"))

end Entry

/-- The name a difference is headed with. -/
def diffName (file : Path) : String :=
  match file.fileName with
  | some n => lossy n
  | none => file.display

def fileDiff (file : Path) (before after : String) : String :=
  Diff.unified (diffName file) before after

namespace Event

def text : Event → String
  | .decision e => e.block
  | .difference file before after =>
    let block := s!"CHANGES DETECTED in {file.display}\nDIFF:\n" ++ fileDiff file before after
    if block.toList.getLast? == some '\n' then block else block ++ "\n"
  | .note text => text ++ "\n"

end Event

/-- The decisions among events. -/
def decisions (events : List Event) : List Entry :=
  events.filterMap (fun | .decision e => some e | _ => none)

/-- The log of a run. -/
def logText (events : List Event) : String := String.join (events.map Event.text)

end Vendoring
