import Vendoring.Path
/-!
# Where a file sits

A file is either one of the vendored tree or one of its consumers.  Both kinds are at a depth: how
many directories lie between the file's own and the vendor root, or the vendor root's parent.  A
vendored file that lies directly inside a top-level package knows that package's name on disk.
-/
namespace Vendoring

inductive Location where
  | consumer (depth : Nat)
  | vendored (depth : Nat) (package : Option String) (isInit : Bool)
deriving DecidableEq, Repr

namespace Location

/-- The file that is a package's own code. -/
def initFile : Bytes := utf8 "__init__.py"

/-- The directories between `base` and a file below it; zero for any other file. -/
def levelsBelow (file base : Path) : Nat :=
  match file.below? base with
  | some rest => rest.length - 1
  | none => 0

def ofPath (file vendorRoot : Path) : Location :=
  if file.liesBelow vendorRoot then
    let depth := levelsBelow file vendorRoot
    let package := if depth == 1 then file.parent.bind Path.fileNameText else none
    .vendored depth package (file.fileName == some initFile)
  else
    match vendorRoot.parent with
    | some anchor => .consumer (levelsBelow file anchor)
    | none => .consumer 0

end Location

end Vendoring
