import Vendoring.Error
/-!
# Edits of a text

An edit replaces the bytes from `start` to `stop` of a text; an edit with `start = stop` inserts.
Edits are applied together: they are brought into the order of their ranges, edits of one range
staying in the order given, and the stretches between them are copied.  An edit that begins before
the last one ended or ends beyond the text is refused.  Offsets are what the caller gives, so a cut
can fall inside a character; that is a `Fault.badCut` and no error.
-/
namespace Vendoring

structure Edit where
  start : Nat
  stop : Nat
  replacement : String
deriving DecidableEq, Repr

namespace Edit

def replace (start stop : Nat) (replacement : String) : Edit := ⟨start, stop, replacement⟩

def insert (at_ : Nat) (text : String) : Edit := ⟨at_, at_, text⟩

def le (a b : Edit) : Bool := a.start < b.start || (a.start == b.start && a.stop ≤ b.stop)

def refusal (e : Edit) : Error :=
  .other s!"Overlapping or out-of-bounds edit at {e.start}..{e.stop}"

/-- What `slice?` gives, an impossible cut being a fault. -/
def cut (source : List Char) (a b : Nat) : Except Fault (List Char) :=
  match slice? source a b with
  | some s => .ok s
  | none => .error .badCut

/-- Applies edits that are in order; `cursor` is where the last one ended. -/
def splice (source : List Char) (cursor : Nat) : List Edit → Except Fault (List Char)
  | [] => cut source cursor (utf8Length source)
  | e :: es =>
    if e.start < cursor || utf8Length source < e.stop then .error (.error e.refusal)
    else do
      let gap ← cut source cursor e.start
      let rest ← splice source e.stop es
      .ok (gap ++ e.replacement.toList ++ rest)

/-- Applies all edits to a text. -/
def applyAll (source : List Char) (edits : List Edit) : Except Fault (List Char) :=
  splice source 0 (edits.mergeSort le)

end Edit

end Vendoring
