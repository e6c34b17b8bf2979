import Vendoring.Source.Repair
/-!
# Parsing a source

`parse` gives every source a tree.  When the grammar reads the whole of it, that tree is what was
read; otherwise it holds the fault of the source.  `parseStrict` refuses a tree that holds one and
says where it lies.
-/
namespace Vendoring

namespace Source

/-- Enough for any reading: each token opens a bounded number of rules. -/
def fuelFor (ts : List Token) : Nat := 400 * (ts.length + 1)

/-- The tree of a source that parses. -/
def read? (ts : List Token) : Option Tree :=
  match Grammar.moduleRule.read Grammar.rules (fuelFor ts) ⟨ts, false, []⟩ with
  | some ([t], _) => some t
  | _ => none

/-- The line and column of an offset, both from one; a column counts bytes. -/
structure Position where
  line : Nat
  column : Nat
deriving DecidableEq, Repr

def positionFrom (p : Position) (left : Nat) : List Char → Position
  | [] => p
  | c :: cs =>
    if left == 0 then p
    else if c == '\n' then positionFrom ⟨p.line + 1, 1⟩ (left - 1) cs
    else positionFrom ⟨p.line, p.column + c.utf8Size⟩ (left - c.utf8Size) cs

def positionAt (source : List Char) (offset : Nat) : Position :=
  positionFrom ⟨1, 1⟩ offset source

def Position.label (p : Position) : String := s!"line {p.line}, column {p.column}"

def parse (source : List Char) : Tree :=
  let ts := tokens source
  match read? ts with
  | some t => t
  | none => .node .module .part [(faultOf source).tree]

/-- Why a source is refused. -/
def faultReason (source : List Char) (t : Tree) : String :=
  match Tree.firstFault? [t] with
  | some (.missing expected at_) =>
    s!"missing `{expected}` at {(positionAt source at_).label}"
  | some fault => s!"syntax error at {(positionAt source fault.span.start).label}"
  | none => "syntax error"

def parseStrict (source : List Char) : Except String Tree :=
  let t := parse source
  if t.hasFault then .error (faultReason source t) else .ok t

end Source

end Vendoring
