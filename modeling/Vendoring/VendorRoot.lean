import Vendoring.Disk
import Vendoring.RenameTable
/-!
# The vendor directory

What a vendor directory provides is read off its direct children: a folder is a package unless an
installer left it there as metadata, a Python file is a module unless its name begins with an
underscore. Renaming moves those children to their new names one after the other; a child that has
its new name already stays, and a new name that is taken stops the renaming where it is.
-/
namespace Vendoring

namespace VendorRoot

/-- How the names of folders end that installers leave next to the packages. -/
def metadataEndings : List String := [".dist-info", ".egg-info"]

def isMetadata (name : String) : Bool :=
  metadataEndings.any (fun e => e.toList.isSuffixOf name.toList)

def pythonEnding : Bytes := utf8 "py"

/-- The name a child provides, if it provides one. -/
def provided (d : Disk) (root : Path) (name : Bytes) : Option String :=
  match ofUtf8? name with
  | none => none
  | some text =>
    let child := root.child name
    if d.isFolder child then
      if isMetadata text then none else some text
    else if child.extension == some pythonEnding && text.toList.head? != some '_' then
      child.stem.bind ofUtf8?
    else none

/-- The packages of a vendor directory. -/
def packages (d : Disk) (root : Path) : Except Error PackageSet :=
  if d.isFolder root then
    match d.list root with
    | .ok names => .ok (PackageSet.ofList (names.filterMap (provided d root)))
    | .error e => .error (.io e)
  else .error (.vendorRootMissing root)

/-! ## Renaming -/

/-- A move that was made, or is to be made. -/
structure Move where
  source : Path
  target : Path
deriving DecidableEq, Repr

/-- The two moves that come into question for a name: the folder's and the module's. -/
def candidates (root : Path) (given renamed : String) : List Move :=
  [⟨root.join (Path.ofString given), root.join (Path.ofString renamed)⟩,
    ⟨root.join (Path.ofString (given ++ ".py")), root.join (Path.ofString (renamed ++ ".py"))⟩]

def targetExists (m : Move) : Error :=
  .rename s!"Cannot rename {m.source.display} to {m.target.display}: target exists"

/-- Makes the first move whose source exists. -/
def moveFirst (d : Disk) : List Move → Except Error (Option Move × Disk)
  | [] => .ok (none, d)
  | m :: ms =>
    if !d.exists m.source then moveFirst d ms
    else if d.exists m.target then .error (targetExists m)
    else match d.move m.source m.target with
      | .ok d => .ok (some m, d)
      | .error e => .error (.io e)

/-- Renames one pair after the other; the disk is what it is when an error stops the renaming. -/
def renamePairs (root : Path) : List (String × String) → Disk → Except Error (List Move) × Disk
  | [], d => (.ok [], d)
  | (given, renamed) :: rest, d =>
    match moveFirst d (candidates root given renamed) with
    | .error e => (.error e, d)
    | .ok (made, d) =>
      let (result, d) := renamePairs root rest d
      (result.map (fun moves => made.toList ++ moves), d)

/-- Renames the children of a vendor directory as a table says. -/
def rename (t : RenameTable) (root : Path) (d : Disk) : Except Error (List Move) × Disk :=
  renamePairs root t.pairs d

end VendorRoot

end Vendoring
