import Vendoring.Edit
import Vendoring.Import
import Vendoring.RenameTable
import Vendoring.Statement
/-!
# A rename table applied to what is written

A vendored package is referred to by its name on disk, and an imported top-level name is bound under
its given name, so that the code after the import reads as before.  An alias the source chose is
kept.  Relative imports that are there already get the same treatment: a renamed name imported
without an alias gets its given name as one.
-/
namespace Vendoring

namespace Renaming

def segment (t : RenameTable) (s : Segment) : Segment :=
  if s.topLevel then
    match t.renamed? s.name with
    | some name => { s with name := name }
    | none => s
  else s

def relativeModule (t : RenameTable) (m : RelativeModule) : RelativeModule :=
  { m with segments := m.segments.map (segment t) }

def boundName (t : RenameTable) (n : BoundName) : BoundName :=
  if n.topLevel then
    match t.renamed? n.name with
    | some name => { n with name := name, asName := some (n.asName.getD n.name) }
    | none => n
  else n

def statement (t : RenameTable) : Statement → Statement
  | .fromImport source names => .fromImport (relativeModule t source) (names.map (boundName t))
  | .verbatim text => .verbatim text

/-- The insertions that give the renamed names of a relative import their givenNames. -/
def aliasEdits (t : RenameTable) (i : SelectiveImport) : List Edit :=
  match i.names with
  | .star => []
  | .names names =>
    names.filterMap (fun n =>
      match n.asName with
      | some _ => none
      | none => (t.givenOf? n.name).map (fun o => Edit.insert n.nameEnd (" as " ++ o)))

/-- A module under a scope's table, or as it is when there is none. -/
def moduleUnder (t : Option RenameTable) (m : RelativeModule) : RelativeModule :=
  match t with
  | some t => relativeModule t m
  | none => m

def statementUnder (t : Option RenameTable) (s : Statement) : Statement :=
  match t with
  | some t => statement t s
  | none => s

end Renaming

end Vendoring
