import Vendoring.PackageSet
import Vendoring.Text.Blank
import Vendoring.Error
/-!
# Renaming the vendored names

A table gives every vendored name `o` the name `o_s`, where `s` is the suffix with everything taken
out of it that no identifier can hold.  A name that already ends in `_s` is a renamed one from an
earlier run and is read back to its given name, so a table built on a tree that is renamed in part,
or in whole, is the same table.  Two names for one given name cannot be told apart afterwards and
are refused.
-/
namespace Vendoring

structure RenameTable where
  suffix : String
  /-- The given names with their new names, in the order of the given ones. -/
  pairs : List (String × String)
deriving DecidableEq, Repr

namespace RenameTable

/-- Keeps letters, digits and underscores of ASCII, makes an underscore of anything else, and takes
underscores off both ends. -/
def sanitizeSuffix (raw : String) : String :=
  String.ofList (trimWhere (· == '_')
    ((trimWhere isBlank raw.toList).map (fun c => if c.isAlphanum || c == '_' then c else '_')))

/-- A name without `marker` at its end, when something is left. -/
def stripMarker? (marker name : String) : Option String :=
  if marker.toList.isSuffixOf name.toList && marker.length < name.length then
    some (String.ofList (name.toList.take (name.length - marker.length)))
  else none

/-- The given and the new name of a name found in the vendor directory. -/
def pairOf (marker name : String) : String × String :=
  match stripMarker? marker name with
  | some given => (given, name)
  | none => (name, name ++ marker)

def insertPair (p : String × String) : List (String × String) → List (String × String)
  | [] => [p]
  | q :: qs => if p.1 < q.1 then p :: q :: qs else q :: insertPair p qs

def lookup (pairs : List (String × String)) (key : String) : Option String :=
  (pairs.find? (·.1 == key)).map (·.2)

def collision (given existing : String) : Error :=
  .rename s!"Both `{given}` and `{existing}` are present in the vendor directory"

def emptySuffix : Error := .rename "Rename suffix must contain at least one identifier character"

/-- Adds the names one after the other; the second of two names for one given name is refused. -/
def addNames (marker : String) (pairs : List (String × String)) :
    List String → Except Error (List (String × String))
  | [] => .ok pairs
  | n :: ns =>
    let p := pairOf marker n
    match lookup pairs p.1 with
    | some existing => .error (collision p.1 existing)
    | none => addNames marker (insertPair p pairs) ns

/-- The table of a set of vendored names. -/
def ofPackages (packages : PackageSet) (rawSuffix : String) : Except Error RenameTable :=
  let suffix := sanitizeSuffix rawSuffix
  if suffix.isEmpty then .error emptySuffix
  else (addNames ("_" ++ suffix) [] packages.names).map (fun pairs => ⟨suffix, pairs⟩)

/-- The new name of a given one. -/
def renamed? (t : RenameTable) (given : String) : Option String := lookup t.pairs given

/-- The given name of a new one. -/
def givenOf? (t : RenameTable) (name : String) : Option String :=
  (t.pairs.find? (·.2 == name)).map (·.1)

/-- A new name read back to its given one; any other name is its own. -/
def canonical (t : RenameTable) (name : String) : String := (t.givenOf? name).getD name

/-- The given names, which are the names in scope when renaming. -/
def givenNames (t : RenameTable) : PackageSet := PackageSet.ofList (t.pairs.map (·.1))

end RenameTable

end Vendoring
