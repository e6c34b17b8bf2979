import Vendoring.DottedPath
/-!
# Import statements

What has to be known of an import statement: where it stands, what it names, and the byte offsets at
which an edit may be made.  `import a.b as c, d` is a whole-module import with two targets; `from
..a import b as c, d` is a selective one, whose module part has a level (its leading dots) and a
path that may be missing.
-/
namespace Vendoring

/-- A stretch of a source, in bytes. -/
structure Span where
  start : Nat
  stop : Nat
deriving DecidableEq, Repr, Inhabited

/-- One target of a whole-module import; `text` is the target as it is written, alias included. -/
structure ModuleTarget where
  path : DottedPath
  asName : Option String
  text : String
deriving DecidableEq

/-- An imported name; `nameEnd` is the offset after it, where an alias goes. -/
structure ImportedName where
  name : String
  asName : Option String
  nameEnd : Nat
deriving DecidableEq, Repr

inductive ImportedNames where
  | star
  | names (names : List ImportedName)
deriving DecidableEq, Repr

structure SelectiveImport where
  level : Nat
  path : Option DottedPath
  /-- The module part, leading dots included. -/
  moduleSpan : Span
  names : ImportedNames
deriving DecidableEq

namespace SelectiveImport

def isRelative (i : SelectiveImport) : Bool := 0 < i.level

def isStar (i : SelectiveImport) : Bool :=
  match i.names with
  | .star => true
  | .names _ => false

end SelectiveImport

inductive ImportForm where
  | whole (targets : List ModuleTarget)
  | selective (i : SelectiveImport)
deriving DecidableEq

/-- An import statement of a source: `text` is what stands at `span`, `line` counts from one. -/
structure ImportReference where
  span : Span
  text : String
  line : Nat
  form : ImportForm
deriving DecidableEq

end Vendoring
